import Haruspex.Vcard.Heads

/-! What comes back from a line that is written and folded. -/
namespace Haruspex.Vcard
open LineEndings (joinCrlf)
open Rust (trim isWhitespace)
set_option autoImplicit false

/-! ## The line that is read -/

theorem trim_ne_nil {text : List Char} {c : Char} (hc : c ∈ text) (hvisible : isWhitespace c = false) :
    trim text ≠ [] := by
  intro h
  rw [trim, List.reverse_eq_nil_iff, List.dropWhile_eq_nil_iff] at h
  have hdrop : ∀ d ∈ text.dropWhile isWhitespace, isWhitespace d = true :=
    fun d hd => h d (List.mem_reverse.mpr hd)
  have hall : text.takeWhile isWhitespace ++ text.dropWhile isWhitespace = text := List.takeWhile_append_dropWhile
  rw [← hall, List.mem_append] at hc
  rcases hc with hc | hc
  · rw [List.mem_takeWhile_imp hc] at hvisible
    cases hvisible
  · rw [hdrop c hc] at hvisible
    cases hvisible

theorem chop_append {a b : List Char} (h : b ≠ []) : chop (a ++ b) = a ++ chop b := by
  unfold chop
  rw [List.getLast?_append_of_ne_nil _ h]
  split
  · rw [List.dropLast_append_of_ne_nil h]
  · rfl

theorem joined_append {a b : List Char} (folds : List Fold) (h : b ≠ []) :
    joined (a ++ b) folds = a ++ joined b folds := by
  cases folds with
  | nil => rfl
  | cons f folds =>
    rw [joined, joined, chop_append h]
    split <;> simp

theorem blank_white {c : Char} (h : blank c = true) : isWhitespace c = true := by
  simp only [blank, decide_eq_true_eq] at h
  rcases h with rfl | rfl <;> rfl

theorem trim_blanks {blanks : List Char} (h : ∀ c ∈ blanks, blank c = true) : trim blanks = [] := by
  have htrim := @Rust.trim_after blanks [] (fun c hc => blank_white (h c hc)) (List.forall_mem_nil _)
  rwa [List.append_nil] at htrim

theorem chop_blanks {blanks : List Char} (h : ∀ c ∈ blanks, blank c = true) : chop blanks = blanks := by
  refine chop_of_not fun hlast => ?_
  have hblank := h _ (List.mem_of_getLast? hlast)
  cases hblank

/-- Lines before the first that is not blank are left out, and the rest is one line; the blank it may start
with is all that stays of a fold before it. -/
theorem foldl_rawLines {blanks prev : List Char} {folds : List Fold} {c : Char} {rest : List Char}
    (hblanks : ∀ c ∈ blanks, blank c = true) (hline : unfolded prev folds = c :: rest)
    (hc : isWhitespace c = false) :
    ∃ start : List Char, (∀ c ∈ start, blank c = true) ∧
      (rawLines (blanks ++ prev) folds).foldl joinStep [] = [start ++ joined prev folds] := by
  induction folds generalizing blanks prev with
  | nil =>
    have hprev : prev = c :: rest := by simpa [unfolded] using hline
    have htrim : trim (blanks ++ prev) ≠ [] := trim_ne_nil (by simp [hprev]) hc
    refine ⟨blanks, hblanks, ?_⟩
    simp [rawLines, joined, joinStep, htrim]
  | cons f folds ih =>
    cases prev with
    | nil =>
      have hnext : unfolded f.piece folds = c :: rest := by simpa [unfolded] using hline
      obtain ⟨start, hstart, hfold⟩ := @ih [f.blank] f.piece (by simp [blank_fold]) hnext
      refine ⟨start, hstart, ?_⟩
      have hfirst : (if f.crlf then blanks else chop blanks) = blanks := by
        rw [chop_blanks hblanks, ite_self]
      have hskip : joinStep [] blanks = [] := by simp [joinStep, trim_blanks hblanks]
      rw [List.append_nil, rawLines, hfirst, List.foldl_cons, hskip]
      rw [List.singleton_append] at hfold
      rw [hfold, joined]
      simp [chop]
    | cons d prev =>
      obtain ⟨rfl, -⟩ : d = c ∧ _ := List.cons.inj (by simpa [unfolded] using hline)
      obtain ⟨first, more, hraw, hjoin, hblank, hfirst⟩ := rawLines_cons (blanks ++ d :: prev) (f :: folds)
      have hmem : d ∈ first := by
        rcases hfirst with rfl | rfl
        · simp
        · rw [chop_append (by simp)]
          unfold chop
          split
          · rename_i hlast
            cases prev with
            | nil =>
              rw [List.getLast?_singleton, Option.some_inj] at hlast
              subst hlast
              cases hc
            | cons e prev => simp
          · simp
      have hstep : joinStep [] first = [] ++ [first] := by simp [joinStep, trim_ne_nil hmem hc]
      refine ⟨blanks, hblanks, ?_⟩
      rw [hraw, List.foldl_cons, hstep, foldl_joinStep _ _ _ hblank, hjoin, joined_append _ (by simp)]
      rfl

theorem splitStructured_ne_nil {value : List Char} {parts : List (List Char)}
    (h : splitStructured value = some parts) : parts ≠ [] := by
  suffices hloop : ∀ (cs : List Char) (out : List (List Char)) (last : List Char) (escaped : Bool),
      structuredLoop cs (out ++ [last]) escaped = some parts → parts ≠ [] from hloop value [] [] false h
  clear h
  intro cs
  induction cs with
  | nil =>
    intro out last escaped hparts
    have heq : out ++ [last] = parts := by
      cases escaped <;> exact Option.some.inj hparts
    rw [← heq]
    simp
  | cons c cs ih =>
    intro out last escaped hparts
    cases escaped
    · unfold structuredLoop at hparts
      split at hparts
      · exact ih _ _ _ hparts
      · split at hparts
        · exact ih _ _ _ hparts
        · rw [onLast_snoc, Option.bind_some] at hparts
          exact ih _ _ _ hparts
    · unfold structuredLoop at hparts
      rw [onLast_snoc, Option.bind_some] at hparts
      exact ih _ _ _ hparts

/-- A value is the end of its line. -/
theorem suffix_of_cutAt {q : Bool} {line head value : List Char} (h : cutAt q line = some (head, value)) :
    value <:+ line := by
  induction line generalizing q head with
  | nil => cases h
  | cons c line ih =>
    have hthrough : ∀ q', (cutAt q' line).map (fun r => (c :: r.1, r.2)) = some (head, value) → value <:+ c :: line := by
      intro q' hmap
      obtain ⟨⟨front, back⟩, hcut, heq⟩ := Option.map_eq_some_iff.mp hmap
      obtain ⟨-, rfl⟩ := Prod.mk.inj heq
      exact (ih hcut).trans (List.suffix_cons c line)
    unfold cutAt at h
    split at h
    · exact hthrough _ h
    · split at h
      · obtain ⟨-, rfl⟩ := Prod.mk.inj (Option.some.inj h)
        exact List.suffix_cons c line
      · exact hthrough _ h

theorem suffix_of_lineOf {text : List Char} {line : Line} (h : lineOf text = some line) : line.value <:+ text := by
  unfold lineOf at h
  obtain ⟨⟨head, value⟩, hcut, hline⟩ := Option.bind_eq_some_iff.mp h
  split at hline
  · cases hline
  · rw [← Option.some.inj hline]
    exact suffix_of_cutAt hcut

/-- One line is read, and on it the name, the type words and the fields. -/
def ReadBack (name : List Char) (params : List TypeParam) (fields : List (List Char)) (text : List Char) : Prop :=
  ∃ line, readLines text = some [line] ∧ line.name = name ∧
    line.typeWords = (params.flatMap TypeParam.words).map lower ∧
    ∃ parts, splitStructured line.value = some parts ∧ parts.map unescape = fields

theorem newline_contentLine {name : List Char} {params : List TypeParam} {fields : List (List Char)}
    (hname : IsName name) (hparams : ∀ p ∈ params, p.Valid) : '\n' ∉ contentLine name params fields := by
  have hesc : ∀ field : List Char, '\n' ∉ esc field := by
    intro field hmem
    obtain ⟨c, -, hc⟩ := List.mem_flatMap.mp hmem
    by_cases hescaped : c = '\\' ∨ c = ';' ∨ c = ','
    · rw [if_pos hescaped] at hc
      rcases hescaped with rfl | rfl | rfl <;> simp at hc
    · rw [if_neg hescaped] at hc
      by_cases hline : c = '\n'
      · simp [hline] at hc
      · rw [if_neg hline, List.mem_singleton] at hc
        exact hline hc.symm
  have hvalue : '\n' ∉ valueText fields := by
    induction fields with
    | nil => simp [valueText]
    | cons field fields ih =>
      cases fields with
      | nil => simpa [valueText] using hesc field
      | cons next fields =>
        rw [valueText_cons, List.mem_append, List.mem_cons]
        rintro (hmem | hmem | hmem)
        · exact hesc field hmem
        · cases hmem
        · exact ih hmem
  have hhead : '\n' ∉ headText name (params.map TypeParam.text) := by
    rw [headText, List.flatMap_map, List.mem_append, List.mem_flatMap]
    rintro (hmem | ⟨p, hp, hmem⟩)
    · cases (hname.2 _ hmem).1
    · rcases List.mem_cons.mp hmem with hmem | hmem
      · cases hmem
      · cases TypeParam.visible (hparams p hp) _ hmem
  rw [contentLine, List.mem_append, List.mem_cons]
  rintro (hmem | hmem | hmem)
  · exact hhead hmem
  · cases hmem
  · exact hvalue hmem

/-- A folded line comes back as it was written, when it has a field and no fold eats a carriage return. -/
theorem readBack_iff {name : List Char} {params : List TypeParam} {fields : List (List Char)} {first : List Char}
    {folds : List Fold} (hname : IsName name) (hparams : ∀ p ∈ params, p.Valid)
    (hline : unfolded first folds = contentLine name params fields) :
    ReadBack name params fields (folded first folds) ↔ fields ≠ [] ∧ NoReturnBefore first folds := by
  have hnewline := @newline_contentLine _ _ fields hname hparams
  rw [← hline, unfolded, List.mem_append, List.mem_flatMap] at hnewline
  obtain ⟨c, more, hname'⟩ := List.exists_cons_of_ne_nil hname.1
  have hstartName : isWhitespace c = false := (hname.2 c (by rw [hname']; exact List.mem_cons_self)).1
  have hfirst : unfolded first folds = c :: (more ++ (params.map TypeParam.text).flatMap (fun p => ';' :: p) ++
      ':' :: valueText fields) := by
    simp [hline, contentLine, headText, hname']
  obtain ⟨start, hstart, hfold⟩ :=
    @foldl_rawLines [] first folds c _ (List.forall_mem_nil _) hfirst hstartName
  have hlines : linesOf (folded first folds) = [start ++ joined first folds].filterMap lineOf := by
    rw [linesOf, rawLines_eq (fun h => hnewline (.inl h)) fun f hf h => hnewline (.inr ⟨f, hf, h⟩)]
    rw [List.nil_append] at hfold
    rw [hfold]
  have hclosed : ∀ p ∈ params.map TypeParam.text, Closed p := by
    intro text htext
    obtain ⟨p, hp, rfl⟩ := List.mem_map.mp htext
    exact TypeParam.closed (hparams p hp)
  constructor
  · rintro ⟨line, hread, -, -, parts, hsplit, hparts⟩
    refine ⟨fun hnil => ?_, ?_⟩
    · rw [hnil, List.map_eq_nil_iff] at hparts
      exact splitStructured_ne_nil hsplit hparts
    · by_contra hreturn
      have hfewer := (count_joined first folds).2 hreturn
      rw [readLines_eq, Option.some_inj, hlines] at hread
      have hlineOf : lineOf (start ++ joined first folds) = some line := by
        cases hof : lineOf (start ++ joined first folds) with
        | none => simp [hof] at hread
        | some line' => simpa [hof] using hread
      have hvalue := (suffix_of_lineOf hlineOf).sublist.count_le '\r'
      have hblanks : start.count '\r' = 0 :=
        List.count_eq_zero.mpr fun hmem => by cases hstart _ hmem
      have hcount := count_parts hsplit
      have hhead : (headText name (params.map TypeParam.text)).count '\r' = 0 := by
        rw [List.count_eq_zero, headText, List.flatMap_map, List.mem_append, List.mem_flatMap]
        rintro (hmem | ⟨p, hp, hmem⟩)
        · cases (hname.2 _ hmem).1
        · rcases List.mem_cons.mp hmem with hmem | hmem
          · cases hmem
          · cases TypeParam.visible (hparams p hp) _ hmem
      rw [hparts] at hcount
      rw [List.count_append] at hvalue
      rw [hline, contentLine, List.count_append, List.count_cons_of_ne (by decide), count_valueText] at hfewer
      omega
  · rintro ⟨hfields, hreturn⟩
    obtain ⟨parts, hsplit, hparts⟩ := splitStructured_valueText hfields
    have hof := @lineOf_head _ _ (valueText fields) _ hstart hname hclosed
    rw [joined_of_noReturn hreturn, hline, contentLine, List.filterMap_cons, hof] at hlines
    refine ⟨_, by rw [readLines_eq, hlines]; rfl, rfl, typeWords_eq hparams rfl, parts, hsplit, hparts⟩

end Haruspex.Vcard
