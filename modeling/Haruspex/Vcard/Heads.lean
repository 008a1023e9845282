import Haruspex.Vcard.Fold

/-! What is read before the colon of a line: its name and its type words. -/
namespace Haruspex.Vcard
open Rust (trim isWhitespace)
set_option autoImplicit false

/-! ## Reading the head -/

/-- A text with nothing in it that ends the head or a parameter, or opens quotes. -/
def Bare (text : List Char) : Prop := ∀ c ∈ text, c ∉ [':', ';', '"']

/-- A text that is read through to its end when it stands outside quotes. -/
structure Closed (text : List Char) : Prop where
  cut : ∀ rest, cutAt false (text ++ rest) = (cutAt false rest).map fun r => (text ++ r.1, r.2)
  parts : ∀ rest, paramParts false (text ++ rest) =
    (text ++ (paramParts false rest).1, (paramParts false rest).2)

theorem cutAt_through {q : Bool} {text : List Char} (h : ∀ c ∈ text, c ≠ '"' ∧ ¬ (c = ':' ∧ q = false))
    (rest : List Char) : cutAt q (text ++ rest) = (cutAt q rest).map fun r => (text ++ r.1, r.2) := by
  induction text with
  | nil => simp
  | cons c text ih =>
    rw [List.forall_mem_cons] at h
    rw [List.cons_append, cutAt, if_neg h.1.1, if_neg h.1.2, ih h.2]
    simp [Function.comp_def]

theorem paramParts_through {q : Bool} {text : List Char} (h : ∀ c ∈ text, c ≠ '"' ∧ ¬ (c = ';' ∧ q = false))
    (rest : List Char) :
    paramParts q (text ++ rest) = (text ++ (paramParts q rest).1, (paramParts q rest).2) := by
  induction text with
  | nil => rfl
  | cons c text ih =>
    rw [List.forall_mem_cons] at h
    rw [List.cons_append, paramParts, if_neg h.1.1, if_neg h.1.2, ih h.2]
    rfl

theorem Bare.closed {text : List Char} (h : Bare text) : Closed text := by
  constructor
  · refine cutAt_through fun c hc => ?_
    have hplain := h c hc
    simp only [List.mem_cons, not_or] at hplain
    exact ⟨hplain.2.2.1, fun hcolon => hplain.1 hcolon.1⟩
  · refine paramParts_through fun c hc => ?_
    have hplain := h c hc
    simp only [List.mem_cons, not_or] at hplain
    exact ⟨hplain.2.2.1, fun hsep => hplain.2.1 hsep.1⟩

theorem Closed.append {a b : List Char} (ha : Closed a) (hb : Closed b) : Closed (a ++ b) := by
  constructor
  · intro rest
    rw [List.append_assoc, ha.cut, hb.cut]
    simp [Function.comp_def]
  · intro rest
    rw [List.append_assoc, ha.parts, hb.parts]
    simp

/-- What stands in quotes is read through. -/
theorem closed_quoted {body : List Char} (h : '"' ∉ body) : Closed ('"' :: (body ++ ['"'])) := by
  have hne : ∀ c ∈ body, c ≠ '"' := fun c hc heq => h (heq ▸ hc)
  constructor
  · intro rest
    have hbody := cutAt_through (q := true) (fun c hc => ⟨hne c hc, by simp⟩) ('"' :: rest)
    rw [cutAt, if_pos rfl] at hbody
    rw [List.cons_append, cutAt, if_pos rfl, List.append_assoc, List.singleton_append, Bool.not_false, hbody]
    simp [Function.comp_def]
  · intro rest
    have hbody := paramParts_through (q := true) (fun c hc => ⟨hne c hc, by simp⟩) ('"' :: rest)
    rw [paramParts, if_pos rfl] at hbody
    rw [List.cons_append, paramParts, if_pos rfl, List.append_assoc, List.singleton_append, Bool.not_false, hbody]
    simp

theorem cutAt_params {params : List (List Char)} (h : ∀ p ∈ params, Closed p) (value : List Char) :
    cutAt false ((params.flatMap fun p => ';' :: p) ++ ':' :: value) =
      some (params.flatMap fun p => ';' :: p, value) := by
  induction params with
  | nil => simp [cutAt]
  | cons p params ih =>
    rw [List.forall_mem_cons] at h
    rw [List.flatMap_cons, List.append_assoc, List.cons_append, cutAt, if_neg (by decide),
      if_neg (by decide), h.1.cut, ih h.2]
    rfl

theorem paramParts_params {params : List (List Char)} (h : ∀ p ∈ params, Closed p) :
    paramParts false (params.flatMap fun p => ';' :: p) = ([], params) := by
  induction params with
  | nil => rfl
  | cons p params ih =>
    rw [List.forall_mem_cons] at h
    rw [List.flatMap_cons, List.cons_append, paramParts, if_neg (by decide), if_pos ⟨rfl, rfl⟩, h.1.parts,
      ih h.2, List.append_nil]

theorem withoutGroup_plain {name : List Char} (h : '.' ∉ name) : withoutGroup name = name := by
  rw [withoutGroup, List.splitOn_eq_singleton h]
  rfl

/-- A line is read as its name, its parameters and its value, blanks before it left out. -/
theorem lineOf_head {blanks name value : List Char} {params : List (List Char)}
    (hblanks : ∀ c ∈ blanks, blank c = true) (hname : IsName name) (hparams : ∀ p ∈ params, Closed p) :
    lineOf (blanks ++ (headText name params ++ ':' :: value)) =
      some { name := name, params := (params.filter fun p => trim p ≠ []).map parseParam, value := value } := by
  have hwhite : ∀ c ∈ blanks, isWhitespace c = true := by
    intro c hc
    have hblank := hblanks c hc
    simp only [blank, decide_eq_true_eq] at hblank
    rcases hblank with rfl | rfl <;> decide
  have hbare : Bare (blanks ++ name) := by
    intro c hc
    rcases List.mem_append.mp hc with hc | hc
    · have hblank := hblanks c hc
      simp only [blank, decide_eq_true_eq] at hblank
      rcases hblank with rfl | rfl <;> decide
    · have hsep := (hname.2 c hc).2
      simp only [List.mem_cons, not_or] at hsep ⊢
      exact ⟨hsep.2.1, hsep.2.2.1, hsep.2.2.2⟩
  have hdot : '.' ∉ name := fun hmem => (hname.2 _ hmem).2 (by simp)
  have hline : blanks ++ (headText name params ++ ':' :: value) =
      blanks ++ name ++ ((params.flatMap fun p => ';' :: p) ++ ':' :: value) := by
    simp [headText]
  have hcut : cutAt false (blanks ++ (headText name params ++ ':' :: value)) =
      some (blanks ++ name ++ params.flatMap fun p => ';' :: p, value) := by
    rw [hline, hbare.closed.cut, cutAt_params hparams]
    rfl
  have hparts : paramParts false (blanks ++ name ++ params.flatMap fun p => ';' :: p) = (blanks ++ name, params) := by
    rw [hbare.closed.parts, paramParts_params hparams, List.append_nil]
  have htrim : trim (blanks ++ name) = name := Rust.trim_after hwhite fun c hc => (hname.2 c hc).1
  rw [lineOf, hcut, Option.bind_some]
  dsimp only
  rw [hparts]
  dsimp only
  rw [htrim, if_neg hname.1, withoutGroup_plain hdot]

/-! ## Type words -/

theorem plain_bare {separators text : List Char} (h : Plain separators text)
    (hseps : ∀ c ∈ [':', ';', '"'], c ∈ separators) : Bare text :=
  fun c hc hsep => (h.2 c hc).2 (hseps c hsep)

theorem mem_typeList {words : List (List Char)} {c : Char} (h : c ∈ typeList words) :
    c = ',' ∨ ∃ word ∈ words, c ∈ word := by
  induction words with
  | nil => simp [typeList] at h
  | cons word words ih =>
    cases words with
    | nil => exact .inr ⟨word, List.mem_cons_self, by simpa [typeList] using h⟩
    | cons next words =>
      have hlist : typeList (word :: next :: words) = word ++ ',' :: typeList (next :: words) := by
        simp [typeList, List.intercalate]
      rw [hlist, List.mem_append, List.mem_cons] at h
      rcases h with h | h | h
      · exact .inr ⟨word, List.mem_cons_self, h⟩
      · exact .inl h
      · rcases ih h with h | ⟨w, hw, hc⟩
        · exact .inl h
        · exact .inr ⟨w, List.mem_cons_of_mem _ hw, hc⟩

theorem TypeParam.closed {p : TypeParam} (h : p.Valid) : Closed p.text := by
  have hkey : Bare typeKey := by
    intro c hc
    simp only [typeKey, String.reduceToList, List.mem_cons, List.not_mem_nil, or_false] at hc
    rcases hc with rfl | rfl | rfl | rfl | rfl <;> decide
  cases p with
  | bare word => exact (plain_bare h.1 (by simp)).closed
  | types words =>
    refine hkey.closed.append (Bare.closed fun c hc => ?_)
    rcases mem_typeList hc with rfl | ⟨word, hword, hc⟩
    · decide
    · exact plain_bare (h word hword) (by simp) c hc
  | quotedTypes words =>
    have hbody : '"' ∉ typeList words := by
      intro hmem
      rcases mem_typeList hmem with hcomma | ⟨word, hword, hc⟩
      · cases hcomma
      · exact ((h word hword).2 _ hc).2 (by simp)
    exact hkey.closed.append (closed_quoted hbody)

/-- No white space is in a type parameter. -/
theorem TypeParam.visible {p : TypeParam} (h : p.Valid) : ∀ c ∈ p.text, isWhitespace c = false := by
  have hkey : ∀ c ∈ typeKey, isWhitespace c = false := by
    intro c hc
    simp only [typeKey, String.reduceToList, List.mem_cons, List.not_mem_nil, or_false] at hc
    rcases hc with rfl | rfl | rfl | rfl | rfl <;> rfl
  have hlist : ∀ {separators : List Char} {words : List (List Char)}, (∀ word ∈ words, Plain separators word) →
      ∀ c ∈ typeList words, isWhitespace c = false := by
    intro separators words hwords c hc
    rcases mem_typeList hc with rfl | ⟨word, hword, hc⟩
    · rfl
    · exact ((hwords word hword).2 c hc).1
  cases p with
  | bare word => exact fun c hc => (h.1.2 c hc).1
  | types words =>
    intro c hc
    rcases List.mem_append.mp hc with hc | hc
    · exact hkey c hc
    · exact hlist h c hc
  | quotedTypes words =>
    intro c hc
    simp only [TypeParam.text, List.mem_append, List.mem_cons, List.not_mem_nil, or_false] at hc
    rcases hc with hc | rfl | hc | rfl
    · exact hkey c hc
    · rfl
    · exact hlist h c hc
    · rfl

theorem TypeParam.text_ne_nil {p : TypeParam} (h : p.Valid) : p.text ≠ [] := by
  have hkey : typeKey ≠ [] := by decide +kernel
  cases p with
  | bare word => exact h.1.1
  | types words => exact List.append_ne_nil_of_left_ne_nil hkey _
  | quotedTypes words => exact List.append_ne_nil_of_left_ne_nil hkey _

/-- What is left of a value of a parameter. -/
def clean (value : List Char) : List Char := trimMatches '"' (trim value)

theorem clean_quotes {front back word : List Char} (hopen : ∀ c ∈ front, c = '"') (hclose : ∀ c ∈ back, c = '"')
    (hword : ∀ c ∈ word, isWhitespace c = false ∧ c ≠ '"') : clean (front ++ word ++ back) = word := by
  have hvisible : ∀ c ∈ front ++ word ++ back, isWhitespace c = false := by
    intro c hc
    simp only [List.mem_append] at hc
    rcases hc with (hc | hc) | hc
    · rw [hopen c hc]
      rfl
    · exact (hword c hc).1
    · rw [hclose c hc]
      rfl
  have hstop : ∀ l : List Char, (∀ c ∈ l, c ≠ '"') → l.dropWhile (· = '"') = l := by
    intro l hl
    cases l with
    | nil => rfl
    | cons c l => simp [hl c List.mem_cons_self]
  have hskip : ∀ l : List Char, (∀ c ∈ l, c = '"') → ∀ rest : List Char,
      (l ++ rest).dropWhile (· = '"') = rest.dropWhile (· = '"') := by
    intro l hl rest
    exact List.dropWhile_append_of_pos fun c hc => decide_eq_true (hl c hc)
  unfold clean trimMatches
  rw [Rust.trim_eq_self hvisible, List.append_assoc, hskip _ hopen]
  cases word with
  | nil =>
    have hnone := hskip _ hclose []
    rw [List.append_nil] at hnone
    rw [List.nil_append, hnone]
    rfl
  | cons c word =>
    have hc := (hword c List.mem_cons_self).2
    rw [List.cons_append, List.dropWhile_cons_of_neg (by simpa using hc), ← List.cons_append, List.reverse_append,
      hskip _ fun d hd => hclose d (List.mem_reverse.mp hd),
      hstop _ fun d hd => (hword d (List.mem_reverse.mp hd)).2, List.reverse_reverse]

/-- The values of a list of types are its words, in quotes or not. -/
theorem values_typeList {front back : List Char} {words : List (List Char)} (hopen : ∀ c ∈ front, c = '"')
    (hclose : ∀ c ∈ back, c = '"')
    (hwords : ∀ word ∈ words, Plain ['"', ','] word) :
    (((front ++ typeList words ++ back).splitOn ',').map clean).filter (· ≠ []) = words := by
  have hcomma : ∀ l : List Char, (∀ c ∈ l, c = '"') → ',' ∉ l := fun l hl hmem => by cases hl _ hmem
  induction words generalizing front with
  | nil =>
    have hclean := @clean_quotes _ _ [] hopen hclose (List.forall_mem_nil _)
    have hno : ',' ∉ front ++ [] ++ back := by simp [hcomma _ hopen, hcomma _ hclose]
    change (((front ++ [] ++ back).splitOn ',').map clean).filter (· ≠ []) = []
    rw [List.splitOn_eq_singleton hno, List.map_singleton, hclean]
    rfl
  | cons word words ih =>
    rw [List.forall_mem_cons] at hwords
    have hplain : ∀ c ∈ word, isWhitespace c = false ∧ c ≠ '"' := by
      intro c hc
      exact ⟨(hwords.1.2 c hc).1, fun heq => (hwords.1.2 c hc).2 (by simp [heq])⟩
    have hno : ',' ∉ word := fun hmem => (hwords.1.2 _ hmem).2 (by simp)
    cases words with
    | nil =>
      have hno' : ',' ∉ front ++ word ++ back := by simp [hcomma _ hopen, hcomma _ hclose, hno]
      rw [typeList, List.intercalate_singleton, List.splitOn_eq_singleton hno', List.map_singleton,
        clean_quotes hopen hclose hplain, List.filter_cons_of_pos (by simpa using hwords.1.1), List.filter_nil]
    | cons next words =>
      have hlist : front ++ typeList (word :: next :: words) ++ back =
          front ++ word ++ ',' :: ([] ++ typeList (next :: words) ++ back) := by
        simp [typeList, List.intercalate]
      have hhead : ',' ∉ front ++ word := by simp [hcomma _ hopen, hno]
      have hclean := @clean_quotes _ [] _ hopen (List.forall_mem_nil _) hplain
      rw [List.append_nil] at hclean
      rw [hlist, List.splitOn_append_cons_self_of_not_mem hhead, List.map_cons, hclean,
        List.filter_cons_of_pos (by simpa using hwords.1.1), ih (List.forall_mem_nil _) hwords.2]

theorem parseParam_types {values : List Char} :
    parseParam (typeKey ++ values) =
      ("TYPE".toList, ((values.splitOn ',').map clean).filter (· ≠ [])) := by
  have hsplit : splitOnce '=' (typeKey ++ values) = some ("TYPE".toList, values) := by
    simp [splitOnce, typeKey]
  have htrim : trim "TYPE".toList = "TYPE".toList := by decide +kernel
  rw [parseParam, hsplit]
  dsimp only
  rw [htrim]
  rfl

theorem parseParam_word {word : List Char} (h : IsWord word) : parseParam word = (word, []) := by
  have hno : word.dropWhile (· ≠ '=') = [] := by
    rw [List.dropWhile_eq_nil_iff]
    intro c hc
    exact decide_eq_true fun heq => (h.2 c hc).2 (by simp [heq])
  rw [parseParam, splitOnce, hno]
  dsimp only
  rw [Rust.trim_eq_self fun c hc => (h.2 c hc).1]

/-- The type words of one parameter. -/
def wordsOf (p : List Char × List (List Char)) : List (List Char) :=
  if sameWord p.1 "TYPE" then p.2 else if p.2 = [] then [p.1] else []

theorem wordsOf_types {key : List Char} (h : sameWord key "TYPE" = true) (values : List (List Char)) :
    wordsOf (key, values) = values := if_pos h

theorem wordsOf_text {p : TypeParam} (h : p.Valid) : wordsOf (parseParam p.text) = p.words := by
  have hkey : sameWord "TYPE".toList "TYPE" = true := by decide +kernel
  cases p with
  | bare word =>
    rw [TypeParam.text, parseParam_word h.1, wordsOf]
    simp [h.2, TypeParam.words]
  | types words =>
    have hseps : ∀ c ∈ ['"', ','], c ∈ [':', ';', '"', ',', '='] := by simp
    have hwords : ∀ word ∈ words, Plain ['"', ','] word := fun word hword =>
      ⟨(h word hword).1, fun c hc => ⟨((h word hword).2 c hc).1, fun hsep => ((h word hword).2 c hc).2 (hseps c hsep)⟩⟩
    have hvalues := @values_typeList [] [] words (List.forall_mem_nil _) (List.forall_mem_nil _) hwords
    rw [List.nil_append, List.append_nil] at hvalues
    rw [TypeParam.text, parseParam_types, hvalues, wordsOf_types hkey]
    rfl
  | quotedTypes words =>
    have hvalues := @values_typeList ['"'] ['"'] words (by simp) (by simp) h
    rw [List.append_assoc, List.singleton_append] at hvalues
    rw [TypeParam.text, parseParam_types, hvalues, wordsOf_types hkey]
    rfl

theorem typeWords_eq {line : Line} {params : List TypeParam} (h : ∀ p ∈ params, p.Valid)
    (hline : line.params = ((params.map TypeParam.text).filter fun p => trim p ≠ []).map parseParam) :
    line.typeWords = (params.flatMap TypeParam.words).map lower := by
  have hwhite : ∀ w ∈ params.flatMap TypeParam.words, trim w = w := by
    intro w hw
    obtain ⟨p, hp, hw⟩ := List.mem_flatMap.mp hw
    refine Rust.trim_eq_self ?_
    have hvalid := h p hp
    cases p with
    | bare word =>
      obtain rfl := List.mem_singleton.mp hw
      exact fun c hc => (hvalid.1.2 c hc).1
    | types words => exact fun c hc => ((hvalid w hw).2 c hc).1
    | quotedTypes words => exact fun c hc => ((hvalid w hw).2 c hc).1
  have hkeep : (params.map TypeParam.text).filter (fun p => trim p ≠ []) = params.map TypeParam.text := by
    rw [List.filter_eq_self]
    intro text htext
    obtain ⟨p, hp, rfl⟩ := List.mem_map.mp htext
    rw [Rust.trim_eq_self (TypeParam.visible (h p hp))]
    exact decide_eq_true (TypeParam.text_ne_nil (h p hp))
  have hwords : (params.map TypeParam.text).flatMap (fun text => wordsOf (parseParam text)) =
      params.flatMap TypeParam.words := by
    rw [List.flatMap_map, List.flatMap_def, List.flatMap_def,
      List.map_congr_left fun p hp => wordsOf_text (h p hp)]
  change (line.params.flatMap wordsOf).map (fun w => lower (trim w)) = _
  rw [hline, hkeep, List.flatMap_map, hwords]
  exact List.map_congr_left fun w hw => by rw [hwhite w hw]

end Haruspex.Vcard
