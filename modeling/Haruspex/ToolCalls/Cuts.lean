import Haruspex.ToolCalls.Split

/-! What is cut out where a pattern of the resolver matches, and what each goes over. -/
namespace Haruspex.ToolCalls
open JavaScript Marks Patterns
set_option autoImplicit false

/-! ## Heads -/

/-- `[a-zA-Z_][a-zA-Z0-9_]*` -/
def IsName (name : List Char) : Prop :=
  name.head?.any isNameStart = true ∧ ∀ c ∈ name.tail, isNameChar c = true

theorem isNameChar_of_isBlank {c : Char} (h : isBlank c = true) : isNameChar c = false := by
  have hname : ∀ n, isNameChar c = true → c.toNat = n → 48 ≤ n ∧ n ≤ 122 := by
    intro n hc hn
    rw [isNameChar, Bool.or_eq_true, beq_iff_eq] at hc
    obtain hc | hc := hc
    · have hcode := JavaScript.toNat_of_alphanum hc
      omega
    · subst hc
      subst hn
      decide
  by_contra hc
  obtain ⟨hlow, hhigh⟩ := hname _ (by simpa using hc) rfl
  simp only [isBlank, Bool.or_eq_true, Bool.and_eq_true, decide_eq_true_eq, List.contains_iff_mem, List.mem_cons,
    List.not_mem_nil, or_false] at h
  omega

theorem readHead_iff {mark text name after : List Char} :
    readHead mark text = some (name, after) ↔
      ∃ blanks, text = mark ++ (name ++ (blanks ++ '>' :: after)) ∧ IsName name ∧ ∀ c ∈ blanks, isBlank c = true := by
  unfold readHead
  constructor
  · intro h
    split at h
    · rename_i hmark
      obtain ⟨rest, rfl⟩ := hmark
      rw [List.drop_left] at h
      split at h
      · cases h
      · rename_i c rest
        split at h
        · rename_i hstart
          split at h
          · rename_i tail htail
            cases h
            refine ⟨(rest.dropWhile isNameChar).takeWhile isBlank, ?_, ⟨hstart, ?_⟩, ?_⟩
            · have hname := List.takeWhile_append_dropWhile (p := isNameChar) (l := rest)
              have hblank := List.takeWhile_append_dropWhile (p := isBlank) (l := rest.dropWhile isNameChar)
              rw [htail] at hblank
              rw [hblank, List.cons_append, hname]
            · exact fun d hd => List.mem_takeWhile_imp hd
            · exact fun d hd => List.mem_takeWhile_imp hd
          · cases h
        · cases h
    · cases h
  · rintro ⟨blanks, rfl, ⟨hstart, hname⟩, hblanks⟩
    cases name with
    | nil => cases hstart
    | cons c name =>
      rw [List.tail_cons] at hname
      have hstop : (blanks ++ '>' :: after).head?.any isNameChar = false := by
        cases blanks with
        | nil => rfl
        | cons d blanks => exact isNameChar_of_isBlank (hblanks d List.mem_cons_self)
      have htake : (name ++ (blanks ++ '>' :: after)).takeWhile isNameChar = name := by
        rw [List.takeWhile_append_of_pos hname]
        cases hrest : blanks ++ '>' :: after with
        | nil => simp at hrest
        | cons d rest =>
          rw [hrest] at hstop
          simp [show isNameChar d = false from hstop]
      have hdrop : (name ++ (blanks ++ '>' :: after)).dropWhile isNameChar = blanks ++ '>' :: after := by
        rw [List.dropWhile_append_of_pos hname]
        cases hrest : blanks ++ '>' :: after with
        | nil => simp at hrest
        | cons d rest =>
          rw [hrest] at hstop
          simp [show isNameChar d = false from hstop]
      have hafter : (blanks ++ '>' :: after).dropWhile isBlank = '>' :: after := by
        rw [List.dropWhile_append_of_pos hblanks, List.dropWhile_cons_of_neg (by decide)]
      have hstart' : isNameStart c = true := hstart
      rw [if_pos (List.prefix_append _ _), List.drop_left]
      simp only [List.cons_append]
      rw [if_pos hstart', htake, hdrop, hafter]
      rfl

theorem not_mem_name {name : List Char} (h : IsName name) : '<' ∉ name := by
  intro hmem
  obtain ⟨hstart, hname⟩ := h
  cases name with
  | nil => cases hstart
  | cons c name =>
    obtain rfl | hmem := List.mem_cons.mp hmem
    · have hmark : isNameStart '<' = true := hstart
      exact absurd hmark (by decide)
    · exact absurd (hname '<' hmem) (by decide)

/-- A head that starts ahead of a `<` ends there. -/
theorem readHead_append {word text rest : List Char} (hword : '<' ∉ word) (hne : text ≠ [])
    (hrest : rest = [] ∨ rest.head? = some '<') :
    readHead ('<' :: word) (text ++ rest) =
      (readHead ('<' :: word) text).map fun (name, after) => (name, after ++ rest) := by
  ext ⟨name, after⟩
  rw [readHead_iff, Option.map_eq_some_iff]
  constructor
  · rintro ⟨blanks, htext, hname, hblanks⟩
    have hmark : '<' ∉ word ++ (name ++ (blanks ++ ['>'])) := by
      intro hmem
      simp only [List.mem_append, List.mem_singleton] at hmem
      obtain hmem | hmem | hmem | hmem := hmem
      · exact hword hmem
      · exact not_mem_name hname hmem
      · exact absurd (hblanks _ hmem) (by decide)
      · exact absurd hmem (by decide)
    have hwhole : text ++ rest = '<' :: (word ++ (name ++ (blanks ++ ['>']))) ++ after := by
      rw [htext]
      simp
    have hprefix : '<' :: (word ++ (name ++ (blanks ++ ['>']))) <+: text := by
      obtain rfl | hhead := hrest
      · rw [List.append_nil] at hwhole
        rw [hwhole]
        exact List.prefix_append _ _
      · obtain ⟨tail, rfl⟩ := List.head?_eq_some_iff.mp hhead
        refine @prefix_of_prefix_append _ _ _ text tail '<' hmark hne ?_
        rw [hwhole]
        exact List.prefix_append _ _
    obtain ⟨after', rfl⟩ := hprefix
    rw [List.append_assoc, List.append_cancel_left_eq] at hwhole
    refine ⟨(name, after'), readHead_iff.mpr ⟨blanks, by simp, hname, hblanks⟩, ?_⟩
    dsimp only
    rw [hwhole]
  · rintro ⟨⟨name', after'⟩, hread, heq⟩
    cases heq
    obtain ⟨blanks, rfl, hname, hblanks⟩ := readHead_iff.mp hread
    exact ⟨blanks, by simp, hname, hblanks⟩

/-! ## Blocks in the text -/

theorem functionPattern_begins : functionPattern.Begins functionOpen := by
  intro text found h
  obtain ⟨⟨name, after⟩, hhead, -⟩ := Option.map_eq_some_iff.mp h
  obtain ⟨blanks, rfl, -⟩ := readHead_iff.mp hhead
  exact List.prefix_append _ _

theorem toolCallPattern_begins : toolCallPattern.Begins toolCallOpen := by
  intro text found h
  by_contra hopen
  have hnone : toolCallMatch text = none := if_neg hopen
  cases hnone.symm.trans h

/-- What a function block stops at. -/
def functionRest (text : List Char) : List Char :=
  (upTo [functionOpen, functionClose] (text.drop functionOpen.length)).2

theorem functionRest_head (text : List Char) : functionRest text = [] ∨ (functionRest text).head? = some '<' := by
  unfold functionRest
  obtain hnil | ⟨stop, hstop, hprefix⟩ := @upTo_stops _ _ [functionOpen, functionClose] (text.drop functionOpen.length)
  · exact .inl hnil
  · refine .inr ?_
    obtain ⟨rest, hrest⟩ := hprefix
    rw [← hrest]
    obtain rfl | rfl : stop = functionOpen ∨ stop = functionClose := by simpa using hstop
    · rfl
    · rfl

theorem functionCut_fst_append {text : List Char} (h : functionOpen <+: text) :
    (functionCut text).1 ++ functionRest text = text := by
  rw [functionCut, functionRest, List.append_assoc, upTo_append, List.prefix_iff_eq_append.mp h]

/-- The function block that is found where one is cut out. -/
theorem functionPattern_match {text : List Char} (h : functionOpen <+: text) :
    functionPattern.match? text =
      (readHead functionOpen (functionCut text).1).map fun (name, body) => ((name, body), functionRest text) := by
  have hne : (functionCut text).1 ≠ [] := by simp [functionCut, functionOpen]
  have hread : readHead functionOpen ((functionCut text).1 ++ functionRest text) =
      (readHead functionOpen (functionCut text).1).map fun (name, after) => (name, after ++ functionRest text) :=
    readHead_append (by decide) hne (functionRest_head text)
  rw [functionCut_fst_append h] at hread
  show (readHead functionOpen text).map _ = _
  rw [hread, Option.map_map]
  cases hblock : readHead functionOpen (functionCut text).1 with
  | none => rfl
  | some found =>
    obtain ⟨name, after⟩ := found
    obtain ⟨blanks, heq, -⟩ := readHead_iff.mp hblock
    have hinner : (upTo [functionOpen, functionClose] (text.drop functionOpen.length)).1 =
        (name ++ (blanks ++ ['>'])) ++ after := by
      rw [functionCut, List.append_cancel_left_eq] at heq
      rw [heq]
      simp
    have hlater := upTo_later hinner
    simp only [Option.map_some, Function.comp_apply]
    rw [functionRest, hlater]

theorem exists_functionEnd (text : List Char) :
    ∃ mark, functionRest text = mark ++ (functionCut text).2 ∧ (mark = [] ∨ mark = functionClose) := by
  unfold functionRest functionCut
  dsimp only
  split
  · rename_i hclose
    exact ⟨functionClose, (List.prefix_iff_eq_append.mp hclose).symm, .inr rfl⟩
  · exact ⟨[], rfl, .inl rfl⟩

/-- Where a function block ends, no other block starts before what comes after it. -/
theorem quiet_functionEnd {β : Type} {p : Pattern Char β} {word mark rest : List Char} (hbegins : p.Begins ('<' :: word))
    (hword : ¬ word <+: functionClose.tail) (htail : ¬ functionClose.tail <+: word)
    (hmark : mark = [] ∨ mark = functionClose) : p.Quiet mark rest := by
  obtain rfl | rfl := hmark
  · trivial
  · exact hbegins.quiet_mark (by decide) hword htail

/-- In a block whose head cannot be read no function block starts. -/
theorem quiet_unread {text : List Char} (h : functionOpen <+: text)
    (hhead : readHead functionOpen (functionCut text).1 = none) :
    functionPattern.Quiet (functionCut text).1 (functionRest text) := by
  have hmatch := functionPattern_match h
  rw [hhead, Option.map_none, ← functionCut_fst_append h] at hmatch
  have hinner : functionPattern.Quiet (upTo [functionOpen, functionClose] (text.drop functionOpen.length)).1
      (functionRest text) :=
    Pattern.Begins.quiet functionPattern_begins (by decide)
      (upTo_free List.mem_cons_self (by decide) (text.drop functionOpen.length)) (functionRest_head text)
  have hword : functionPattern.Quiet functionOpen.tail
      ((upTo [functionOpen, functionClose] (text.drop functionOpen.length)).1 ++ functionRest text) :=
    Pattern.Begins.quiet_plain functionPattern_begins (by decide)
  exact ⟨hmatch, hword.append hinner⟩

/-- A pattern that goes over a function block, where it matches nothing in it. -/
theorem over_function {β : Type} {p : Pattern Char β} {word : List Char} {f : β → List Char}
    (hbegins : p.Begins ('<' :: word)) (hword : ¬ word <+: functionClose.tail) (htail : ¬ functionClose.tail <+: word)
    {text : List Char} (h : functionOpen <+: text) (hquiet : p.Quiet (functionCut text).1 (functionRest text)) :
    p.all text = p.all (functionCut text).2 ∧
      ∃ passed, p.replace f text = passed ++ p.replace f (functionCut text).2 := by
  obtain ⟨mark, hrest, hmark⟩ := exists_functionEnd text
  have hend := @quiet_functionEnd _ _ _ _ (functionCut text).2 hbegins hword htail hmark
  have htext := functionCut_fst_append h
  rw [hrest] at htext hquiet
  constructor
  · have hall := hquiet.all
    rwa [htext, hend.all] at hall
  · have hreplace := @Pattern.Quiet.replace _ _ _ _ f _ hquiet
    rw [htext, hend.replace, ← List.append_assoc] at hreplace
    exact ⟨_, hreplace⟩

/-- Nothing is read of a tag that is left open. -/
theorem quiet_opened {text : List Char} (h : ¬ toolCallClose <:+: text.drop toolCallOpen.length) :
    toolCallPattern.Quiet text [] := by
  induction text with
  | nil => trivial
  | cons c text ih =>
    refine ⟨?_, ih fun hclose => h (hclose.trans ?_)⟩
    · show toolCallMatch (c :: (text ++ [])) = none
      rw [List.append_nil, toolCallMatch, cut_eq_none_iff.mpr h, ite_self]
    · have hlength : toolCallOpen.length = toolCallOpen.tail.length + 1 := rfl
      rw [hlength, List.drop_succ_cons, List.drop_add_one_eq_tail_drop]
      exact (List.tail_suffix _).isInfix

/-- What is cut out where, and what comes after it. -/
theorem cutMatch_some {text rest : List Char} {block : CutBlock} (h : cutMatch text = some (block, rest)) :
    (∃ body, block = .tagged body ∧ toolCallMatch text = some (body, rest)) ∨
      (∃ body, block = .opened body ∧ text = toolCallOpen ++ body ∧ ¬ toolCallClose <:+: body ∧ rest = []) ∨
      (¬ toolCallOpen <+: text ∧ functionOpen <+: text ∧ block = .function (functionCut text).1 ∧
        rest = (functionCut text).2) := by
  unfold cutMatch at h
  by_cases hopen : toolCallOpen <+: text
  · rw [if_pos hopen] at h
    cases hcut : cut toolCallClose (text.drop toolCallOpen.length) with
    | some parts =>
      rw [hcut] at h
      cases h
      exact .inl ⟨_, rfl, by rw [toolCallMatch, if_pos hopen, hcut]⟩
    | none =>
      rw [hcut] at h
      cases h
      exact .inr (.inl ⟨_, rfl, (List.prefix_iff_eq_append.mp hopen).symm, cut_eq_none_iff.mp hcut, rfl⟩)
  · rw [if_neg hopen] at h
    split at h
    · rename_i hstart
      cases h
      rw [startsFunction, Bool.and_eq_true, decide_eq_true_eq] at hstart
      exact .inr (.inr ⟨hopen, hstart.1, rfl, rfl⟩)
    · cases h

theorem cutMatch_none {text : List Char} (h : cutMatch text = none) :
    ¬ toolCallOpen <+: text ∧ startsFunction text = false := by
  unfold cutMatch at h
  split at h
  · split at h
    · cases h
    · cases h
  · rename_i hopen
    split at h
    · cases h
    · rename_i hstart
      exact ⟨hopen, Bool.not_eq_true _ ▸ hstart⟩

/-- Where nothing is cut out, no function block starts. -/
theorem functionPattern_match_none {text : List Char} (h : startsFunction text = false) :
    functionPattern.match? text = none := by
  cases hfound : functionPattern.match? text with
  | none => rfl
  | some found =>
    obtain ⟨⟨name, after⟩, hhead, -⟩ := Option.map_eq_some_iff.mp hfound
    obtain ⟨blanks, rfl, ⟨hstart, -⟩, -⟩ := readHead_iff.mp hhead
    have hname : name ≠ [] := by
      intro hnil
      rw [hnil] at hstart
      cases hstart
    have hstarts : startsFunction (functionOpen ++ (name ++ (blanks ++ '>' :: after))) = true := by
      unfold startsFunction
      rw [List.drop_left, List.head?_append_of_ne_nil _ hname, hstart]
      simp
    exact absurd (hstarts.symm.trans h) (by decide)

/-! ## Names -/

/-- A name as a call has it. -/
def named (name : Option (List Char)) : List Json := (name.map fun n => Json.string (String.ofList n)).toList

/-- What a body is shown as: the function at its first `<function=`; without one, its first `"name":`. -/
def shownName (body : List Char) : Option (List Char) :=
  match cut functionOpen body with
  | some (_, rest) => (readHead functionOpen (functionOpen ++ rest)).map Prod.fst
  | none => search nameAt body

/-- The names of the function blocks of a text. -/
def functionNames (text : List Char) : List Json :=
  (functionPattern.all text).map fun found => .string (String.ofList found.1)

def CutBlock.shown (block : CutBlock) : List Json := (block.call.map fun call => Json.string call.name).toList

theorem readFunctionBlock_name (block : List Char) :
    ((readFunctionBlock block).map fun call => Json.string call.name).toList =
      named ((readHead functionOpen block).map Prod.fst) := by
  unfold readFunctionBlock named
  rw [Option.map_map, Option.map_map]
  rfl

theorem readHead_functionCut {text : List Char} (h : functionOpen <+: text) :
    (readHead functionOpen (functionCut text).1).map Prod.fst = (readHead functionOpen text).map Prod.fst := by
  have hne : (functionCut text).1 ≠ [] := by simp [functionCut, functionOpen]
  have hread : readHead functionOpen ((functionCut text).1 ++ functionRest text) =
      (readHead functionOpen (functionCut text).1).map fun (name, after) => (name, after ++ functionRest text) :=
    readHead_append (by decide) hne (functionRest_head text)
  rw [functionCut_fst_append h] at hread
  rw [hread, Option.map_map]
  rfl

theorem readTaggedBody_name (body : List Char) :
    ((readTaggedBody body).map fun call => Json.string call.name).toList = named (shownName body) := by
  unfold readTaggedBody shownName
  cases hcut : cut functionOpen body with
  | some parts =>
    obtain ⟨before, rest⟩ := parts
    dsimp only
    rw [readFunctionBlock_name, readHead_functionCut (List.prefix_append _ _)]
  | none =>
    dsimp only
    rw [named, Option.map_map]
    rfl

end Haruspex.ToolCalls
