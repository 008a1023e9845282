import Haruspex.Shell.Boundary

/-! Where a word of a command stands in the text it is expanded to. -/
namespace Haruspex.Shell
open JavaScript (isBlank)
open Patterns (Pattern)
set_option autoImplicit false

/-! ## Where a word stands in the expanded command -/

/-- No special pattern stands in a replacement text. -/
def Literal (template : List Char) : Prop := ∀ c ∈ ['$', '&', '`', '\''], ¬ ['$', c] <:+: template

theorem Literal.tail {c : Char} {template : List Char} (h : Literal (c :: template)) : Literal template :=
  fun d hd hwithin => h d hd (List.infix_cons hwithin)

theorem substitution_literal {before matched after template : List Char} (h : Literal template) :
    substitution before matched after template = template := by
  induction template using substitution.induct with
  | case1 template ih => exact absurd ⟨[], template, rfl⟩ (h '$' (by simp))
  | case2 template ih => exact absurd ⟨[], template, rfl⟩ (h '&' (by simp))
  | case3 template ih => exact absurd ⟨[], template, rfl⟩ (h '`' (by simp))
  | case4 template ih => exact absurd ⟨[], template, rfl⟩ (h '\'' (by simp))
  | case5 c template h₁ h₂ h₃ h₄ ih =>
    rw [substitution, ih h.tail]
    · exact h₁
    · exact h₂
    · exact h₃
    · exact h₄
  | case6 => rfl

theorem Literal.append {h rest : List Char} (hliteral : Literal h) (hrest : '$' ∉ rest) : Literal (h ++ '\\' :: rest) := by
  intro c hc
  induction h with
  | nil =>
    intro hwithin
    have hmem := List.IsInfix.subset hwithin (List.mem_cons_self (a := '$'))
    rw [List.nil_append, List.mem_cons] at hmem
    obtain heq | hmem := hmem
    · exact absurd heq (by decide)
    · exact hrest hmem
  | cons x h ih =>
    rw [List.cons_append, List.infix_cons_iff, not_or]
    refine ⟨?_, ih hliteral.tail⟩
    cases h with
    | nil =>
      intro hprefix
      have heq := (List.cons_prefix_cons.mp (List.cons_prefix_cons.mp hprefix).2).1
      subst heq
      revert hc
      decide
    | cons y h =>
      intro hprefix
      obtain ⟨hx, hprefix⟩ := List.cons_prefix_cons.mp hprefix
      obtain ⟨hy, -⟩ := List.cons_prefix_cons.mp hprefix
      exact hliteral c hc ⟨[], h, by rw [hx, hy]; rfl⟩

section
variable {p : Pattern Char (List Char)} {template : List Char}

/-- What is put in for a stretch's matches. -/
def Plainly (p : Pattern Char (List Char)) (template word : List Char) : Prop := Literal template ∨ p.all word = []

theorem Plainly.skip {c : Char} {word : List Char} (h : Plainly p template (c :: word))
    (hnone : p.match? (c :: word) = none) : Plainly p template word := by
  rwa [Plainly, Pattern.all_skip hnone] at h

theorem Plainly.found {word matched rest : List Char} (h : Plainly p template word)
    (hfound : p.match? word = some (matched, rest)) : Literal template := by
  obtain h | h := h
  · exact h
  · rw [Pattern.all_match hfound] at h
    cases h

theorem replaceFrom_skip {c : Char} {text : List Char} (before : List Char) (h : p.match? (c :: text) = none) :
    replaceFrom p template before (c :: text) = c :: replaceFrom p template (before ++ [c]) text := by
  rw [replaceFrom]
  split
  · rename_i hfound
    rw [h] at hfound
    cases hfound
  · rfl

theorem replaceFrom_match {text matched after : List Char} (before : List Char) (h : p.match? text = some (matched, after)) :
    replaceFrom p template before text =
      substitution before matched after template ++ replaceFrom p template (before ++ matched) after := by
  cases text with
  | nil =>
    rw [Pattern.match?_nil] at h
    cases h
  | cons c text =>
    rw [replaceFrom]
    split
    · rename_i matched' after' hfound
      rw [h] at hfound
      cases hfound
      rfl
    · rename_i hnone
      rw [h] at hnone
      cases hnone

/-- What comes before a letter no match goes over is replaced by itself. -/
theorem replaceFrom_stop {d : Char} (hd : p.Stops d) (rest front before : List Char) : ∃ seg before',
    replaceFrom p template before (front ++ d :: rest) = seg ++ d :: replaceFrom p template before' rest ∧
      (Plainly p template front → seg = putFor p template front) := by
  induction front using p.induct generalizing before with
  | nil => exact ⟨[], before ++ [d], replaceFrom_skip before (hd.match?_cons rest), fun _ => (Pattern.replace_nil).symm⟩
  | skip c text hnone ih =>
    obtain ⟨seg, before', heq, hseg⟩ := ih (before ++ [c])
    refine ⟨c :: seg, before', ?_, fun h => ?_⟩
    · have hskip : p.match? (c :: (text ++ d :: rest)) = none := hd.skip rest hnone
      rw [List.cons_append, replaceFrom_skip before hskip, heq, List.cons_append]
    · rw [hseg (h.skip hnone), putFor, putFor, Pattern.replace_skip hnone]
  | found text matched after hfound ih =>
    obtain ⟨seg, before', heq, hseg⟩ := ih (before ++ matched)
    refine ⟨substitution before matched (after ++ d :: rest) template ++ seg, before', ?_, fun h => ?_⟩
    · rw [replaceFrom_match before (hd.found rest hfound), heq, List.append_assoc]
    · have hliteral := h.found hfound
      rw [hseg (Or.inl hliteral), substitution_literal hliteral, putFor, putFor, Pattern.replace_match hfound]

theorem replaceFrom_end (word before : List Char) (h : Plainly p template word) :
    replaceFrom p template before word = putFor p template word := by
  induction word using p.induct generalizing before with
  | nil => rw [replaceFrom, putFor, Pattern.replace_nil]
  | skip c text hnone ih =>
    rw [replaceFrom_skip before hnone, ih _ (h.skip hnone), putFor, putFor, Pattern.replace_skip hnone]
  | found text matched after hfound ih =>
    have hliteral := h.found hfound
    rw [replaceFrom_match before hfound, ih _ (Or.inl hliteral), substitution_literal hliteral, putFor, putFor,
      Pattern.replace_match hfound]

end

/-- A stretch of a text between two delimiters, or a delimiter and an end; `next` comes after it. -/
def Between (text stretch : List Char) (next : Option Char) : Prop :=
  ∃ front back, text = front ++ stretch ++ back ∧ (∀ c ∈ front.getLast?, isDelimiter c = true) ∧
    (∀ c ∈ back.head?, isDelimiter c = true) ∧ back.head? = next

theorem getLast?_cases {front : List Char} {P : Char → Prop} (h : ∀ c ∈ front.getLast?, P c) :
    front = [] ∨ ∃ init d, front = init ++ [d] ∧ P d := by
  obtain rfl | ⟨init, d, rfl⟩ := List.eq_nil_or_concat' front
  · exact Or.inl rfl
  · exact Or.inr ⟨init, d, rfl, h d (by simp)⟩

theorem head?_cases {back : List Char} {P : Char → Prop} (h : ∀ c ∈ back.head?, P c) :
    back = [] ∨ ∃ d tail, back = d :: tail ∧ P d := by
  cases back with
  | nil => exact Or.inl rfl
  | cons d tail => exact Or.inr ⟨d, tail, rfl, h d rfl⟩

section
variable {p : Pattern Char (List Char)} {template text word : List Char} {next : Option Char}

theorem replaceFrom_back (hp : ∀ d, isDelimiter d = true → p.Stops d) (hword : Plainly p template word) {back : List Char}
    (hback : ∀ c ∈ back.head?, isDelimiter c = true) (before : List Char) :
    ∃ back', replaceFrom p template before (word ++ back) = putFor p template word ++ back' ∧ back'.head? = back.head? := by
  obtain rfl | ⟨d, tail, rfl, hd⟩ := head?_cases hback
  · refine ⟨[], ?_, rfl⟩
    rw [List.append_nil, List.append_nil, replaceFrom_end word before hword]
  · obtain ⟨seg, before', heq, hseg⟩ := @replaceFrom_stop p template d (hp d hd) tail word before
    exact ⟨d :: replaceFrom p template before' tail, by rw [heq, hseg hword], rfl⟩

/-- Replacing leaves a stretch where it is. -/
theorem Between.replaced (hp : ∀ d, isDelimiter d = true → p.Stops d) (hword : Plainly p template word)
    (h : Between text word next) : Between (replaceAll p template text) (putFor p template word) next := by
  obtain ⟨front, back, rfl, hfront, hback, hnext⟩ := h
  obtain rfl | ⟨init, d, rfl, hd⟩ := getLast?_cases hfront
  · obtain ⟨back', heq, hhead⟩ := replaceFrom_back hp hword hback []
    refine ⟨[], back', ?_, by simp, by rwa [hhead], by rw [hhead, hnext]⟩
    rw [replaceAll, List.nil_append, heq, List.nil_append]
  · obtain ⟨seg, before', heq, -⟩ := @replaceFrom_stop p template d (hp d hd) (word ++ back) init []
    obtain ⟨back', heq', hhead⟩ := replaceFrom_back hp hword hback before'
    refine ⟨seg ++ [d], back', ?_, by simpa using hd, by rwa [hhead], by rw [hhead, hnext]⟩
    rw [replaceAll, List.append_assoc, List.append_assoc, List.singleton_append, heq, heq']
    simp

theorem Between.map {f : Char → Char} (hf : ∀ d, isDelimiter d = true → f d = d) (h : Between text word next) :
    Between (text.map f) (word.map f) next := by
  obtain ⟨front, back, rfl, hfront, hback, hnext⟩ := h
  refine ⟨front.map f, back.map f, by simp, ?_, ?_, ?_⟩
  · obtain rfl | ⟨init, d, rfl, hd⟩ := getLast?_cases hfront
    · simp
    · simp [hf d hd, hd]
  · obtain rfl | ⟨d, tail, rfl, hd⟩ := head?_cases hback
    · simp
    · simp [hf d hd, hd]
  · obtain rfl | ⟨d, tail, rfl, hd⟩ := head?_cases hback
    · exact hnext
    · rw [← hnext]
      simp [hf d hd]

end

/-! ## The variables stop at a delimiter -/

theorem not_mem_of_delimiter {d : Char} (hd : isDelimiter d = true) {word : List Char} (h : word.any isDelimiter = false) :
    d ∉ word := by
  intro hmem
  rw [List.any_eq_true.mpr ⟨d, hmem, hd⟩] at h
  cases h

/-- No delimiter is a letter, a digit or a slash. -/
theorem toNat_of_delimiter {d : Char} (hd : isDelimiter d = true) :
    d.toNat ≤ 41 ∨ (59 ≤ d.toNat ∧ d.toNat ≤ 62) ∨ 124 ≤ d.toNat := by
  simp only [isDelimiter, isBlank, Bool.or_eq_true, Bool.and_eq_true, decide_eq_true_eq, List.contains_iff_mem,
    List.mem_cons, List.not_mem_nil, or_false] at hd
  obtain hblank | hd := hd
  · omega
  · obtain rfl | rfl | rfl | rfl | rfl | rfl | rfl | rfl | rfl | rfl := hd <;> decide

theorem toLower_delimiter {d : Char} (hd : isDelimiter d = true) : d.toLower = d := by
  have hcode := toNat_of_delimiter hd
  exact JavaScript.toLower_of_not_upper (by omega)

theorem isWordChar_delimiter {d : Char} (hd : isDelimiter d = true) : isWordChar d = false := by
  have hcode := toNat_of_delimiter hd
  refine Bool.eq_false_iff.mpr fun hword => ?_
  rw [isWordChar, Bool.or_eq_true, decide_eq_true_eq] at hword
  obtain hword | rfl := hword
  · have hletter := JavaScript.toNat_of_alphanum hword
    omega
  · revert hcode
    decide

theorem boundaryAhead_stops {d : Char} (hd : isDelimiter d = true) (text rest : List Char) :
    boundaryAhead (text ++ d :: rest) = boundaryAhead text := by
  cases text with
  | nil => simp [boundaryAhead, isWordChar_delimiter hd]
  | cons c text => rfl

theorem afterLetters_stops {fold : Char → Char} {d : Char} {word : List Char} (hd : fold d ∉ word) (text rest : List Char) :
    afterLetters fold word (text ++ d :: rest) = (afterLetters fold word text).map (· ++ d :: rest) := by
  unfold afterLetters
  by_cases hlen : word.length ≤ text.length
  · rw [List.take_append_of_le_length hlen, List.drop_append_of_le_length hlen]
    split
    · rfl
    · rfl
  · have hnone : ¬ (text.take word.length).map fold = word := by
      intro heq
      have hle := congrArg List.length heq
      rw [List.length_map, List.length_take] at hle
      omega
    rw [if_neg hnone, if_neg]
    · rfl
    · intro heq
      refine hd (heq ▸ List.mem_map_of_mem ?_)
      rw [List.take_append, List.mem_append]
      right
      obtain ⟨n, hn⟩ : ∃ n, word.length - text.length = n + 1 := ⟨word.length - text.length - 1, by omega⟩
      rw [hn, List.take_succ_cons]
      exact List.mem_cons_self

theorem skipOne_stops {c d : Char} (hd : d ≠ c) (text rest : List Char) : skipOne c (text ++ d :: rest) = skipOne c text ++ d :: rest := by
  unfold skipOne
  rw [afterLetters_stops (by simpa using hd)]
  cases afterLetters id [c] text <;> rfl

theorem patternOf_stops {ends : List Char → Option (List Char)}
    {shorter : ∀ {text rest}, ends text = some rest → rest.length < text.length} {d : Char}
    (h : ∀ text rest, ends (text ++ d :: rest) = (ends text).map (· ++ d :: rest)) : (patternOf ends shorter).Stops d := by
  intro text rest
  change (ends (text ++ d :: rest)).map _ = ((ends text).map _).map _
  rw [h]
  cases hends : ends text with
  | none => rfl
  | some after =>
    have hlt := shorter hends
    have hsub : (text ++ d :: rest).length - (after ++ d :: rest).length = text.length - after.length := by
      simp only [List.length_append, List.length_cons]
      omega
    simp only [Option.map_some, hsub]
    rw [List.take_append_of_le_length (by omega)]

section
variable {d : Char} (hd : isDelimiter d = true)
include hd

theorem afterLetters_delimiter {fold : Char → Char} (hfold : fold d = d) {word : List Char}
    (hword : word.any isDelimiter = false) (text rest : List Char) :
    afterLetters fold word (text ++ d :: rest) = (afterLetters fold word text).map (· ++ d :: rest) :=
  afterLetters_stops (by rw [hfold]; exact not_mem_of_delimiter hd hword) text rest

theorem filter_boundary (found : Option (List Char)) (rest : List Char) :
    (found.map (· ++ d :: rest)).filter boundaryAhead = (found.filter boundaryAhead).map (· ++ d :: rest) := by
  cases found with
  | none => rfl
  | some text =>
    rw [Option.map_some, Option.filter_some, Option.filter_some, boundaryAhead_stops hd]
    cases boundaryAhead text <;> rfl

theorem homeVariable_stops : homeVariable.Stops d := by
  refine patternOf_stops fun text rest => ?_
  unfold homeEnd
  rw [afterLetters_delimiter hd rfl (by decide), afterLetters_delimiter hd rfl (by decide), filter_boundary hd]
  cases afterLetters id ['$', '{', 'H', 'O', 'M', 'E', '}'] text <;> rfl

theorem profileVariable_stops {name : List Char} (hname : name.any isDelimiter = false) :
    (profileVariable name).Stops d := by
  refine patternOf_stops fun text rest => ?_
  have hlong : ('%' :: (name ++ ['%'])).any isDelimiter = false := by
    rw [List.any_cons, List.any_append, hname]
    decide
  have henv : ('e' :: 'n' :: 'v' :: ':' :: name).any isDelimiter = false := by
    rw [List.any_cons, List.any_cons, List.any_cons, List.any_cons, hname]
    decide
  have hopen : d ≠ '{' := by
    rintro rfl
    revert hd
    decide
  have hclose : d ≠ '}' := by
    rintro rfl
    revert hd
    decide
  unfold profileEnd
  rw [afterLetters_delimiter hd (toLower_delimiter hd) hlong, afterLetters_delimiter hd rfl (by decide)]
  cases afterLetters Char.toLower ('%' :: (name ++ ['%'])) text with
  | some after => rfl
  | none =>
    dsimp only [Option.map_none]
    have hbind : ((afterLetters id ['$'] text).map (· ++ d :: rest)).bind
          (fun rest => afterLetters Char.toLower ('e' :: 'n' :: 'v' :: ':' :: name) (skipOne '{' rest)) =
        ((afterLetters id ['$'] text).bind fun rest =>
          afterLetters Char.toLower ('e' :: 'n' :: 'v' :: ':' :: name) (skipOne '{' rest)).map (· ++ d :: rest) := by
      cases afterLetters id ['$'] text with
      | none => rfl
      | some after =>
        rw [Option.map_some, Option.bind_some, Option.bind_some, skipOne_stops hopen,
          afterLetters_delimiter hd (toLower_delimiter hd) henv]
    rw [hbind, filter_boundary hd, Option.map_map, Option.map_map]
    congr 1
    funext after
    exact skipOne_stops hclose after rest

end

/-! ## The word in the expanded command -/

theorem isSlash_delimiter {d : Char} (hd : isDelimiter d = true) : isSlash d = false := by
  refine Bool.eq_false_iff.mpr fun hslash => ?_
  simp only [isSlash, Bool.or_eq_true, decide_eq_true_eq] at hslash
  obtain rfl | rfl := hslash
  · revert hd
    decide
  · revert hd
    decide

theorem slashAhead_stops {d : Char} (hd : isDelimiter d = true) (text rest : List Char) :
    slashAhead (text ++ d :: rest) = slashAhead text := by
  cases text with
  | nil => simp [slashAhead, isSlash_delimiter hd]
  | cons c text => rfl

theorem expandTilde_stop {d : Char} (hd : isDelimiter d = true) (h : List Char) (ready : Bool) (front rest : List Char) :
    expandTilde h ready (front ++ d :: rest) = expandTilde h ready front ++ d :: expandTilde h (tildeMayFollow d) rest := by
  induction front generalizing ready with
  | nil =>
    have htilde : d ≠ '~' := by
      rintro rfl
      revert hd
      decide
    simp [expandTilde, htilde]
  | cons c front ih =>
    rw [List.cons_append, expandTilde, expandTilde, slashAhead_stops hd, ih, ih]
    split
    · rw [List.append_assoc]
    · rfl

/-- The spellings in a word are those the check expands. -/
structure Expands (home before word : List Char) : Prop where
  /-- A `~` at its front comes after the start, a blank, a quote, `=`, `:` or `(`, and before a slash. -/
  lead : word.head? = some '~' → (word.tail = [] ∨ slashAhead word.tail = true) →
    word.tail ≠ [] ∧ ∀ c ∈ before.getLast?, tildeMayFollow c = true
  inside : ∀ c, isSlash c = true → ¬ [':', '~', c] <:+: word
  /-- The home directory is put in as it is, or no variable stands in the word. -/
  plainly : Literal (homeDir home) ∨
    ∀ p ∈ [homeVariable, profileVariable userProfile, profileVariable appData, profileVariable localAppData],
      p.all (leadingTilde (homeDir home) word) = []

theorem tildeMayFollow_plain {c : Char} (hc : isDelimiter c = false) (h : tildeMayFollow c = true) : c = ':' := by
  simp only [isDelimiter, Bool.or_eq_false_iff] at hc
  simp only [tildeMayFollow, hc.1, Bool.false_or, List.contains_iff_mem, List.mem_cons, List.not_mem_nil, or_false] at h
  obtain rfl | rfl | rfl | rfl | rfl := h
  · exact absurd hc.2 (by decide)
  · exact absurd hc.2 (by decide)
  · exact absurd hc.2 (by decide)
  · rfl
  · exact absurd hc.2 (by decide)

/-- No `~` after the first letter of a word is expanded. -/
theorem expandTilde_inside {h rest : List Char} {ready : Bool} (hplain : ∀ c ∈ rest, isDelimiter c = false)
    (hready : ready = true → ∀ c, isSlash c = true → ¬ ['~', c] <+: rest)
    (hinside : ∀ c, isSlash c = true → ¬ [':', '~', c] <:+: rest) : expandTilde h ready rest = rest := by
  induction rest generalizing ready with
  | nil => rfl
  | cons c rest ih =>
    obtain ⟨hc, hrest⟩ := List.forall_mem_cons.mp hplain
    have hskip : ¬ (ready && c = '~' && slashAhead rest) = true := by
      intro hall
      simp only [Bool.and_eq_true, decide_eq_true_eq] at hall
      obtain ⟨⟨hall, rfl⟩, hslash⟩ := hall
      cases rest with
      | nil => cases hslash
      | cons d rest => exact hready hall d hslash ⟨rest, rfl⟩
    rw [expandTilde, if_neg hskip, ih hrest]
    · intro hfollow d hd hprefix
      obtain ⟨after, rfl⟩ := hprefix
      refine hinside d hd ⟨[], after, ?_⟩
      rw [tildeMayFollow_plain hc hfollow]
      rfl
    · exact fun d hd hwithin => hinside d hd (List.infix_cons hwithin)

theorem expandTilde_word {home before word : List Char} {ready : Bool} (hexpands : Expands home before word)
    (hplain : ∀ c ∈ word, isDelimiter c = false)
    (hready : (∀ c ∈ before.getLast?, tildeMayFollow c = true) → ready = true) (h : List Char) :
    expandTilde h ready word = leadingTilde h word := by
  cases word with
  | nil => rfl
  | cons c rest =>
    obtain ⟨hc, hrest⟩ := List.forall_mem_cons.mp hplain
    have hinside : ∀ d, isSlash d = true → ¬ [':', '~', d] <:+: rest := fun d hd hwithin =>
      hexpands.inside d hd (List.infix_cons hwithin)
    have hcolon : ∀ {ready : Bool}, (ready = true → c = ':') → expandTilde h ready rest = rest := by
      intro ready hcolon
      refine expandTilde_inside hrest (fun hready d hd hprefix => ?_) hinside
      obtain ⟨after, rfl⟩ := hprefix
      refine hexpands.inside d hd ⟨[], after, ?_⟩
      rw [hcolon hready]
      rfl
    unfold leadingTilde expandTilde
    simp only [List.head?_cons, Option.some_inj, List.tail_cons, List.isEmpty_iff, Bool.and_eq_true, Bool.or_eq_true,
      decide_eq_true_eq]
    by_cases hlead : c = '~' ∧ (rest = [] ∨ slashAhead rest = true)
    · obtain ⟨hne, hfollow⟩ := hexpands.lead (by rw [List.head?_cons, hlead.1]) hlead.2
      have hslash := hlead.2.resolve_left hne
      rw [if_pos hlead, if_pos ⟨⟨hready hfollow, hlead.1⟩, hslash⟩, hcolon (by simp)]
    · rw [if_neg hlead, if_neg fun hall => hlead ⟨hall.1.2, Or.inr hall.2⟩, hcolon (tildeMayFollow_plain hc)]

theorem Between.tilde {command before word after home : List Char} (hword : WordAt command before word after)
    (hexpands : Expands home before word) (h : List Char) :
    Between (expandTilde h true command) (leadingTilde h word) after.head? := by
  have hback : ∀ ready : Bool, ((∀ c ∈ before.getLast?, tildeMayFollow c = true) → ready = true) → ∃ back,
      expandTilde h ready (word ++ after) = leadingTilde h word ++ back ∧ back.head? = after.head? := by
    intro ready hready
    obtain rfl | ⟨d, tail, rfl, hd⟩ := head?_cases hword.back
    · exact ⟨[], by rw [List.append_nil, List.append_nil, expandTilde_word hexpands hword.plain hready], rfl⟩
    · exact ⟨d :: expandTilde h (tildeMayFollow d) tail, by
        rw [expandTilde_stop hd, expandTilde_word hexpands hword.plain hready], rfl⟩
  obtain hnil | ⟨init, d, hinit, hd⟩ := getLast?_cases hword.front
  · obtain ⟨back, heq, hhead⟩ := hback true fun _ => rfl
    refine ⟨[], back, ?_, by simp, by rw [hhead]; exact hword.back, hhead⟩
    rw [hword.text, hnil, List.nil_append, heq, List.nil_append]
  · obtain ⟨back, heq, hhead⟩ := hback (tildeMayFollow d) fun hfollow => hfollow d (by rw [hinit]; simp)
    refine ⟨expandTilde h true init ++ [d], back, ?_, by simpa using hd, by rw [hhead]; exact hword.back, hhead⟩
    rw [hword.text, hinit, List.append_assoc, List.append_assoc, List.singleton_append, expandTilde_stop hd, heq]
    simp

theorem slash_delimiter {d : Char} (hd : isDelimiter d = true) : (if d = '\\' then '/' else d) = d := by
  rw [if_neg]
  rintro rfl
  revert hd
  decide

theorem putFor_none {p : Pattern Char (List Char)} {template text : List Char} (h : p.all text = []) :
    putFor p template text = text := by
  induction text using p.induct with
  | nil => exact Pattern.replace_nil
  | skip c text hnone ih =>
    rw [Pattern.all_skip hnone] at h
    rw [putFor, Pattern.replace_skip hnone, ← putFor, ih h]
  | found text matched rest hfound ih =>
    rw [Pattern.all_match hfound] at h
    cases h

/-- A stretch is expanded where it stands. -/
theorem Between.profile {h text word : List Char} {next : Option Char} (hbetween : Between text word next)
    (hplainly : Literal h ∨
      ∀ p ∈ [homeVariable, profileVariable userProfile, profileVariable appData, profileVariable localAppData],
        p.all word = []) :
    Between (replaceAll (profileVariable localAppData) (h ++ localDir)
      (replaceAll (profileVariable appData) (h ++ roamingDir)
        (replaceAll (profileVariable userProfile) h (replaceAll homeVariable h text)))) (putProfile h word) next := by
  have hhome : ∀ d, isDelimiter d = true → homeVariable.Stops d := fun d hd => homeVariable_stops hd
  have huser : ∀ d, isDelimiter d = true → (profileVariable userProfile).Stops d := fun d hd =>
    profileVariable_stops hd (by decide)
  have happ : ∀ d, isDelimiter d = true → (profileVariable appData).Stops d := fun d hd =>
    profileVariable_stops hd (by decide)
  have hlocal : ∀ d, isDelimiter d = true → (profileVariable localAppData).Stops d := fun d hd =>
    profileVariable_stops hd (by decide)
  obtain hliteral | hnone := hplainly
  · have hroaming : Literal (h ++ roamingDir) := hliteral.append (by decide)
    have hlocalDir : Literal (h ++ localDir) := hliteral.append (by decide)
    exact (((hbetween.replaced hhome (.inl hliteral)).replaced huser (.inl hliteral)).replaced happ
      (.inl hroaming)).replaced hlocal (.inl hlocalDir)
  · simp only [List.forall_mem_cons] at hnone
    have h₁ := @Between.replaced _ h _ _ _ hhome (.inr hnone.1) hbetween
    rw [putFor_none hnone.1] at h₁
    have h₂ := @Between.replaced _ h _ _ _ huser (.inr hnone.2.1) h₁
    rw [putFor_none hnone.2.1] at h₂
    have h₃ := @Between.replaced _ (h ++ roamingDir) _ _ _ happ (.inr hnone.2.2.1) h₂
    rw [putFor_none hnone.2.2.1] at h₃
    have h₄ := @Between.replaced _ (h ++ localDir) _ _ _ hlocal (.inr hnone.2.2.2.1) h₃
    rwa [putProfile, putFor_none hnone.1, putFor_none hnone.2.1, putFor_none hnone.2.2.1]

/-- A word is expanded where it stands. -/
theorem expandHome_between {command home before word after : List Char} (hword : WordAt command before word after)
    (hexpands : home ≠ [] → Expands home before word) :
    Between (slashes (expandHome command home)) (expandWord home word) after.head? := by
  refine Between.map (fun d hd => slash_delimiter hd) ?_
  unfold expandHome
  split
  · exact ⟨before, after, hword.text, hword.front, hword.back, rfl⟩
  · rename_i hhome
    exact (Between.tilde hword (hexpands hhome) (homeDir home)).profile (hexpands hhome).plainly

/-! ## The name in the text it is looked for in -/

section
variable (tables : CaseTables)

theorem toLowerCase_append (before front back : List Char) : ∃ lowered,
    toLowerCase tables before (front ++ back) = lowered ++ toLowerCase tables (front.reverse ++ before) back := by
  induction front generalizing before with
  | nil => exact ⟨[], rfl⟩
  | cons c front ih =>
    obtain ⟨lowered, heq⟩ := ih (c :: before)
    refine ⟨(if c = 'Σ' then if tables.finalSigma before (front ++ back) then ['ς'] else ['σ'] else tables.lower c) ++ lowered, ?_⟩
    rw [List.cons_append, toLowerCase, heq, List.reverse_cons, List.append_assoc, List.append_assoc, List.singleton_append]

theorem toLowerCase_plain {front : List Char} (h : 'Σ' ∉ front) (before back : List Char) :
    toLowerCase tables before (front ++ back) =
      front.flatMap tables.lower ++ toLowerCase tables (front.reverse ++ before) back := by
  induction front generalizing before with
  | nil => rfl
  | cons c front ih =>
    rw [List.mem_cons, not_or] at h
    rw [List.cons_append, toLowerCase, if_neg (Ne.symm h.1), ih h.2, List.flatMap_cons, List.reverse_cons,
      List.append_assoc, List.append_assoc, List.singleton_append]

theorem toLowerCase_slash (before : List Char) : toLowerCase tables before ['/'] = ['/'] := by
  rw [toLowerCase, if_neg (by decide), tables.ascii '/' (by decide)]
  rfl

theorem dirPath_eq (path : List Char) : dirPath path = bareDir path ++ ['/'] := rfl

theorem foldCase_dir (windows : Bool) (path : List Char) : ∃ name, foldCase tables windows (dirPath path) = name ++ ['/'] := by
  unfold foldCase
  split
  · obtain ⟨lowered, heq⟩ := toLowerCase_append tables [] (bareDir path) ['/']
    exact ⟨lowered, by rw [dirPath_eq, heq, toLowerCase_slash]⟩
  · exact ⟨bareDir path, rfl⟩

/-- What the check looks for is the name where it ends. -/
theorem findsPath_iff (name haystack : List Char) : findsPath (name ++ ['/']) haystack = true ↔
    ∃ front back, haystack = front ++ name ++ back ∧ (back.head? = some '/' ∨ nameEnds back = true) := by
  simp only [findsPath, Bool.or_eq_true, decide_eq_true_eq, List.any_eq_true, List.mem_tails, Bool.and_eq_true,
    List.dropLast_concat]
  constructor
  · rintro (⟨front, back, rfl⟩ | ⟨t, ⟨front, rfl⟩, ⟨back, rfl⟩, hends⟩)
    · exact ⟨front, '/' :: back, by simp, Or.inl rfl⟩
    · rw [List.drop_left] at hends
      exact ⟨front, back, by simp, Or.inr hends⟩
  · rintro ⟨front, back, rfl, hslash | hends⟩
    · obtain ⟨tail, rfl⟩ := List.head?_eq_some_iff.mp hslash
      exact Or.inl ⟨front, tail, by simp⟩
    · exact Or.inr ⟨name ++ back, ⟨front, by simp⟩, List.prefix_append name back, by rwa [List.drop_left]⟩

theorem toLowerCase_head {c : Char} (hc : tables.lower c = [c]) (hsigma : c ≠ 'Σ') (before rest : List Char) :
    (toLowerCase tables before (c :: rest)).head? = some c := by
  rw [toLowerCase, if_neg hsigma, hc]
  rfl

/-- A word that names a directory, written so that the check sees it. -/
structure Seen (home path before word after name tail : List Char) : Prop where
  expands : home ≠ [] → Expands home before word
  /-- After the directory itself comes a blank, a quote or the end. -/
  ends : tail = [] → nameEnds after = true
  sigma : isWindowsPath (dirPath path) = true → 'Σ' ∉ name ∧ 'Σ' ∉ bareDir path

theorem nameEnds_head {back : List Char} (h : nameEnds back = true) :
    back = [] ∨ ∃ c rest, back = c :: rest ∧ tables.lower c = [c] ∧ c ≠ 'Σ' ∧ nameEnds [c] = true := by
  cases back with
  | nil => exact Or.inl rfl
  | cons c rest =>
    refine Or.inr ⟨c, rest, rfl, ?_, ?_, h⟩
    · simp only [nameEnds, List.head?_cons, Option.all_some, Bool.or_eq_true, decide_eq_true_eq] at h
      obtain (hblank | rfl) | rfl := h
      · exact tables.blank c hblank
      · exact tables.ascii _ (by decide)
      · exact tables.ascii _ (by decide)
    · rintro rfl
      have hsigma : nameEnds ['Σ'] = true := h
      revert hsigma
      decide

theorem stands_of_seen {command home before word after name tail : List Char} {target : ProtectedPath}
    (hword : WordAt command before word after) (hnames : Names tables home target.path word name tail)
    (hseen : Seen home target.path before word after name tail) : Stands tables command home target := by
  obtain ⟨front, back, htext, -, -, hnext⟩ := expandHome_between hword hseen.expands
  rw [hnames.expanded] at htext
  have hback : tail = [] → nameEnds back = true := by
    intro htail
    rw [nameEnds, hnext]
    exact hseen.ends htail
  have hcut : front ++ (name ++ tail) ++ back = front ++ (name ++ (tail ++ back)) := by simp
  have hsame := hnames.same
  rw [Stands, haystack, htext, hcut]
  cases hwindows : isWindowsPath (dirPath target.path) with
  | false =>
    rw [SameName, hwindows] at hsame
    have hname : name = bareDir target.path := hsame
    refine ⟨front, tail ++ back, by simp [foldCase, dirPath_eq, hname], ?_⟩
    cases tail with
    | nil => exact Or.inr (hback rfl)
    | cons c tail => exact Or.inl (by simpa using hnames.ends)
  | true =>
    rw [SameName, hwindows] at hsame
    have hname : name.flatMap tables.lower = (bareDir target.path).flatMap tables.lower := hsame
    obtain ⟨hsigma, hdir⟩ := hseen.sigma hwindows
    obtain ⟨lowered, hlowered⟩ := toLowerCase_append tables [] front (name ++ (tail ++ back))
    have hpath : foldCase tables true (dirPath target.path) = (bareDir target.path).flatMap tables.lower ++ ['/'] := by
      change toLowerCase tables [] (dirPath target.path) = _
      rw [dirPath_eq, toLowerCase_plain tables hdir, toLowerCase_slash]
    have hhay : foldCase tables true (front ++ (name ++ (tail ++ back))) = lowered ++ name.flatMap tables.lower ++
        toLowerCase tables (name.reverse ++ (front.reverse ++ [])) (tail ++ back) := by
      change toLowerCase tables [] _ = _
      rw [hlowered, toLowerCase_plain tables hsigma, List.append_assoc]
    rw [hpath, List.dropLast_concat, hhay, hname]
    refine ⟨lowered, _, rfl, ?_⟩
    cases tail with
    | nil =>
      rw [List.nil_append]
      obtain rfl | ⟨c, rest, rfl, hlower, hne, hc⟩ := nameEnds_head tables (hback rfl)
      · exact Or.inr rfl
      · refine Or.inr ?_
        rw [nameEnds, toLowerCase_head tables hlower hne]
        exact hc
    | cons c tail =>
      have hc : c = '/' := by simpa using hnames.ends
      refine Or.inl ?_
      rw [hc, List.cons_append]
      exact toLowerCase_head tables (tables.ascii '/' (by decide)) (by decide) _ _

end

/-! ## Texts without variables -/

theorem afterLetters_none {fold : Char → Char} {x c : Char} {word text : List Char} (h : fold c ≠ x) :
    afterLetters fold (x :: word) (c :: text) = none := by
  rw [afterLetters, if_neg]
  intro heq
  exact h (List.cons.inj heq).1

theorem eq_percent {c : Char} (h : c.toLower = '%') : c = '%' := by
  by_cases hcode : c.toNat < 128
  · have hascii : ∀ n < 128, (Char.ofNat n).toLower = '%' → Char.ofNat n = '%' := by decide +kernel
    rw [← Char.ofNat_toNat c] at h ⊢
    exact hascii c.toNat hcode h
  · rwa [JavaScript.toLower_of_not_upper (by omega)] at h

/-- Every variable begins with a mark of its own. -/
theorem all_plain {text : List Char} (hdollar : '$' ∉ text) (hpercent : '%' ∉ text) :
    ∀ p ∈ [homeVariable, profileVariable userProfile, profileVariable appData, profileVariable localAppData],
      p.all text = [] := by
  have hhead : ∀ c : Char, c ≠ '$' → c ≠ '%' → ∀ rest, homeEnd (c :: rest) = none ∧ ∀ name, profileEnd name (c :: rest) = none := by
    intro c hdollar hpercent rest
    have hlower : c.toLower ≠ '%' := fun heq => hpercent (eq_percent heq)
    constructor
    · rw [homeEnd, afterLetters_none hdollar, afterLetters_none hdollar]
      rfl
    · intro name
      rw [profileEnd, afterLetters_none hlower, afterLetters_none hdollar]
      rfl
  have hends : ∀ (ends : List Char → Option (List Char))
      (shorter : ∀ {text rest}, ends text = some rest → rest.length < text.length),
      (∀ c : Char, c ≠ '$' → c ≠ '%' → ∀ rest, ends (c :: rest) = none) → (patternOf ends shorter).all text = [] := by
    intro ends shorter hnone
    induction text with
    | nil => exact Pattern.all_nil
    | cons c text ih =>
      rw [List.mem_cons, not_or] at hdollar hpercent
      rw [Pattern.all_skip, ih hdollar.2 hpercent.2]
      change (ends (c :: text)).map _ = none
      rw [hnone c (Ne.symm hdollar.1) (Ne.symm hpercent.1)]
      rfl
  simp only [List.forall_mem_cons]
  exact ⟨hends _ _ fun c h h' rest => (hhead c h h' rest).1, hends _ _ fun c h h' rest => (hhead c h h' rest).2 _,
    hends _ _ fun c h h' rest => (hhead c h h' rest).2 _, hends _ _ fun c h h' rest => (hhead c h h' rest).2 _,
    List.forall_mem_nil _⟩

theorem expandHome_plain {command home : List Char} (hdollar : '$' ∉ expandTilde (homeDir home) true command)
    (hpercent : '%' ∉ expandTilde (homeDir home) true command) (hhome : home ≠ []) :
    expandHome command home = expandTilde (homeDir home) true command := by
  have hall := all_plain hdollar hpercent
  simp only [List.forall_mem_cons] at hall
  have hkeep : ∀ (p : Pattern Char (List Char)) (template text : List Char), p.all text = [] →
      replaceAll p template text = text := fun p template text hnone => by
    rw [replaceAll, replaceFrom_end text [] (Or.inr hnone), putFor_none hnone]
  rw [expandHome, if_neg hhome]
  dsimp only
  rw [hkeep _ _ _ hall.1, hkeep _ _ _ hall.2.1, hkeep _ _ _ hall.2.2.1, hkeep _ _ _ hall.2.2.2.1]

theorem expandWord_plain {home word : List Char} (hdollar : '$' ∉ leadingTilde (homeDir home) word)
    (hpercent : '%' ∉ leadingTilde (homeDir home) word) (hhome : home ≠ []) :
    expandWord home word = slashes (leadingTilde (homeDir home) word) := by
  have hall := all_plain hdollar hpercent
  simp only [List.forall_mem_cons] at hall
  rw [expandWord, if_neg hhome, putProfile, putFor_none hall.1, putFor_none hall.2.1, putFor_none hall.2.2.1,
    putFor_none hall.2.2.2.1]

end Haruspex.Shell
