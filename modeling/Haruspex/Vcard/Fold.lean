import Haruspex.Vcard.Slices

/-! Escaped values on folded lines, and what is read of them. -/
namespace Haruspex.Vcard
open LineEndings (joinCrlf)
open Rust (trim isWhitespace)
set_option autoImplicit false

/-! ## What is written -/

/-- The escaped text of a field. -/
def esc (field : List Char) : List Char :=
  field.flatMap fun c =>
    if c = '\\' ∨ c = ';' ∨ c = ',' then ['\\', c] else if c = '\n' then ['\\', 'n'] else [c]

/-- A text that a name or a word of a parameter can be: no white space, and nothing that separates. -/
def Plain (separators : List Char) (text : List Char) : Prop :=
  text ≠ [] ∧ ∀ c ∈ text, isWhitespace c = false ∧ c ∉ separators

def IsName (name : List Char) : Prop := Plain ['.', ':', ';', '"'] name

def IsWord (word : List Char) : Prop := Plain [':', ';', '"', ',', '='] word

/-- A type parameter: bare, or under its key, and there in quotes or not. -/
inductive TypeParam
  | bare (word : List Char)
  | types (words : List (List Char))
  | quotedTypes (words : List (List Char))

def TypeParam.words : TypeParam → List (List Char)
  | bare word => [word]
  | types words => words
  | quotedTypes words => words

def typeList (words : List (List Char)) : List Char := [','].intercalate words

def typeKey : List Char := "TYPE=".toList

def TypeParam.text : TypeParam → List Char
  | bare word => word
  | types words => typeKey ++ typeList words
  | quotedTypes words => typeKey ++ '"' :: (typeList words ++ ['"'])

/-- A bare parameter is a word other than the key of the types; in quotes, colons and semicolons are plain. -/
def TypeParam.Valid : TypeParam → Prop
  | bare word => IsWord word ∧ sameWord word "TYPE" = false
  | types words => ∀ word ∈ words, IsWord word
  | quotedTypes words => ∀ word ∈ words, Plain ['"', ','] word

def headText (name : List Char) (params : List (List Char)) : List Char :=
  name ++ params.flatMap fun p => ';' :: p

def valueText (fields : List (List Char)) : List Char := [';'].intercalate (fields.map esc)

def contentLine (name : List Char) (params : List TypeParam) (fields : List (List Char)) : List Char :=
  headText name (params.map TypeParam.text) ++ ':' :: valueText fields

/-- A line break with the blank after it, and the text up to the next. -/
structure Fold where
  crlf : Bool
  tab : Bool
  piece : List Char

def Fold.blank (f : Fold) : Char := if f.tab then '\t' else ' '

def Fold.text (f : Fold) : List Char := (if f.crlf then ['\r', '\n'] else ['\n']) ++ f.blank :: f.piece

/-- A line as it is folded. -/
def folded (first : List Char) (folds : List Fold) : List Char := first ++ folds.flatMap Fold.text

/-- The line that is folded. -/
def unfolded (first : List Char) (folds : List Fold) : List Char := first ++ folds.flatMap Fold.piece

/-- No carriage return stands before a line feed that folds. -/
def NoReturnBefore (prev : List Char) : List Fold → Prop
  | [] => True
  | f :: folds => (f.crlf = false → prev.getLast? ≠ some '\r') ∧ NoReturnBefore f.piece folds

/-! ## Values -/

theorem esc_cons (c : Char) (field : List Char) :
    esc (c :: field) =
      (if c = '\\' ∨ c = ';' ∨ c = ',' then ['\\', c] else if c = '\n' then ['\\', 'n'] else [c]) ++ esc field :=
  rfl

theorem unescape_esc (field : List Char) : unescape (esc field) = field := by
  induction field with
  | nil => rfl
  | cons c field ih =>
    rw [esc_cons]
    by_cases hescaped : c = '\\' ∨ c = ';' ∨ c = ','
    · have hn : ¬ (c = 'n' ∨ c = 'N') := by
        rintro (rfl | rfl) <;> simp at hescaped
      rw [if_pos hescaped, List.cons_append, List.singleton_append, unescape, if_neg hn, ih]
    · rw [if_neg hescaped]
      by_cases hline : c = '\n'
      · subst hline
        rw [if_pos rfl, List.cons_append, List.singleton_append, unescape, if_pos (.inl rfl), ih]
      · rw [if_neg hline, List.singleton_append, unescape, ih]
        · rintro c' cs rfl
          simp at hescaped
        · rintro rfl
          simp at hescaped

/-- An escaped field goes through the splitting as it is. -/
theorem structuredLoop_esc (field rest : List Char) (out : List (List Char)) (last : List Char) :
    structuredLoop (esc field ++ rest) (out ++ [last]) false =
      structuredLoop rest (out ++ [last ++ esc field]) false := by
  induction field generalizing last with
  | nil => simp [esc]
  | cons c field ih =>
    rw [esc_cons]
    by_cases hescaped : c = '\\' ∨ c = ';' ∨ c = ','
    · rw [if_pos hescaped]
      simp [structuredLoop, onLast_snoc, ih]
    · rw [if_neg hescaped]
      by_cases hline : c = '\n'
      · rw [if_pos hline]
        simp [structuredLoop, onLast_snoc, ih]
      · rw [if_neg hline]
        simp only [not_or] at hescaped
        simp [structuredLoop, hescaped.1, hescaped.2.1, onLast_snoc, ih]

theorem valueText_cons (field next : List Char) (fields : List (List Char)) :
    valueText (field :: next :: fields) = esc field ++ ';' :: valueText (next :: fields) := by
  simp [valueText, List.intercalate]

theorem structuredLoop_fields (field : List Char) (fields : List (List Char)) (out : List (List Char)) :
    structuredLoop (valueText (field :: fields)) (out ++ [[]]) false =
      some (out ++ (field :: fields).map esc) := by
  induction fields generalizing field out with
  | nil =>
    have h := structuredLoop_esc field [] out []
    rw [List.append_nil, List.nil_append] at h
    simp only [valueText, List.map_cons, List.map_nil, List.intercalate_singleton]
    rw [h]
    rfl
  | cons next fields ih =>
    rw [valueText_cons, structuredLoop_esc, List.nil_append, structuredLoop, if_neg (by decide), if_pos rfl,
      ih next (out ++ [esc field])]
    simp

theorem splitStructured_valueText {fields : List (List Char)} (h : fields ≠ []) :
    ∃ parts, splitStructured (valueText fields) = some parts ∧ parts.map unescape = fields := by
  obtain ⟨field, rest, rfl⟩ := List.exists_cons_of_ne_nil h
  refine ⟨_, structuredLoop_fields field rest [], ?_⟩
  rw [List.nil_append, List.map_map]
  conv_rhs => rw [← List.map_id (field :: rest)]
  exact List.map_congr_left fun f _ => unescape_esc f

/-- No carriage return is lost or made when a value is split and its parts are unescaped. -/
theorem count_unescape (text : List Char) : (unescape text).count '\r' = text.count '\r' := by
  induction text using unescape.induct with
  | case1 => rfl
  | case2 c cs ih =>
    rw [unescape]
    by_cases hn : c = 'n' ∨ c = 'N'
    · rw [if_pos hn]
      rcases hn with rfl | rfl <;> simp [ih]
    · rw [if_neg hn]
      simp [List.count_cons, ih]
  | case3 => rfl
  | case4 c cs h1 h2 ih =>
    rw [unescape, List.count_cons, List.count_cons, ih]
    · exact h1
    · exact h2

theorem count_structuredLoop (cs : List Char) (out : List (List Char)) (last : List Char) (escaped : Bool)
    {parts : List (List Char)} (h : structuredLoop cs (out ++ [last]) escaped = some parts) :
    parts.flatten.count '\r' = (out.flatten ++ last).count '\r' + cs.count '\r' := by
  induction cs generalizing out last escaped with
  | nil =>
    have hparts : out ++ [last] = parts := by
      cases escaped <;> exact Option.some.inj h
    simp [← hparts]
  | cons c cs ih =>
    cases escaped
    · unfold structuredLoop at h
      split at h
      · rename_i hescape
        rw [ih _ _ true h, hescape]
        simp
      · split at h
        · rename_i hsep
          have hrest := ih (out ++ [last]) [] false h
          rw [hrest, hsep]
          simp
        · rw [onLast_snoc, Option.bind_some] at h
          rw [ih _ _ false h]
          simp [List.count_cons]
          omega
    · unfold structuredLoop at h
      rw [onLast_snoc, Option.bind_some] at h
      rw [ih _ _ false h]
      simp [List.count_cons]
      omega

theorem count_parts {value : List Char} {parts : List (List Char)} (h : splitStructured value = some parts) :
    (parts.map unescape).flatten.count '\r' = value.count '\r' := by
  have hparts := count_structuredLoop value [] [] false h
  simp only [List.flatten_nil, List.append_nil, List.count_nil, Nat.zero_add] at hparts
  rw [← hparts]
  clear h hparts
  induction parts with
  | nil => rfl
  | cons part parts ih => simp [count_unescape, ih]

theorem count_esc (field : List Char) : (esc field).count '\r' = field.count '\r' := by
  induction field with
  | nil => rfl
  | cons c field ih =>
    rw [esc_cons, List.count_append, ih, List.count_cons]
    by_cases hescaped : c = '\\' ∨ c = ';' ∨ c = ','
    · rw [if_pos hescaped]
      rcases hescaped with rfl | rfl | rfl <;> simp
    · rw [if_neg hescaped]
      by_cases hline : c = '\n'
      · subst hline
        simp
      · rw [if_neg hline, List.count_singleton]
        omega

theorem count_valueText (fields : List (List Char)) :
    (valueText fields).count '\r' = fields.flatten.count '\r' := by
  induction fields with
  | nil => rfl
  | cons field fields ih =>
    cases fields with
    | nil => simp [valueText, count_esc]
    | cons next fields =>
      rw [valueText_cons, List.count_append, List.count_cons, ih, count_esc]
      simp

/-! ## Joining what is folded -/

/-- A text without the carriage return at its end. -/
def chop (text : List Char) : List Char := if text.getLast? = some '\r' then text.dropLast else text

/-- What the folded line is, line by line. -/
def rawLines (prev : List Char) : List Fold → List (List Char)
  | [] => [prev]
  | f :: folds => (if f.crlf then prev else chop prev) :: rawLines (f.blank :: f.piece) folds

/-- What is left of the line when it is joined. -/
def joined (prev : List Char) : List Fold → List Char
  | [] => prev
  | f :: folds => (if f.crlf then prev else chop prev) ++ joined f.piece folds

theorem joinCrlf_plain {text : List Char} (h : '\n' ∉ text) : joinCrlf text = text := by
  induction text with
  | nil => rfl
  | cons c text ih =>
    rw [List.mem_cons, not_or] at h
    have hhead : text.head? ≠ some '\n' := fun heq => h.2 (List.mem_of_mem_head? heq)
    rw [joinCrlf, if_neg fun hc => hhead hc.2, ih h.2]

/-- A line loses the carriage return at its end. -/
theorem joinCrlf_line {text : List Char} (h : '\n' ∉ text) (rest : List Char) :
    joinCrlf (text ++ '\n' :: rest) = chop text ++ '\n' :: joinCrlf rest := by
  induction text with
  | nil => simp [joinCrlf, chop]
  | cons c text ih =>
    rw [List.mem_cons, not_or] at h
    rw [List.cons_append, joinCrlf]
    cases text with
    | nil =>
      by_cases hc : c = '\r'
      · subst hc
        simp [joinCrlf, chop]
      · simp [joinCrlf, chop, hc]
    | cons d text =>
      have hd : ¬ (c = '\r' ∧ (d :: text ++ '\n' :: rest).head? = some '\n') := by
        rintro ⟨-, hhead⟩
        exact h.2 (List.mem_of_mem_head? (by simpa using hhead))
      have hchop : chop (c :: d :: text) = c :: chop (d :: text) := by
        unfold chop
        rw [List.getLast?_cons_cons]
        split <;> rfl
      rw [if_neg hd, ih h.2, hchop, List.cons_append]

theorem mem_chop {text : List Char} {c : Char} (h : c ∈ chop text) : c ∈ text := by
  unfold chop at h
  split at h
  · exact List.mem_of_mem_dropLast h
  · exact h

theorem rawLines_eq {prev : List Char} {folds : List Fold} (hprev : '\n' ∉ prev)
    (hfolds : ∀ f ∈ folds, '\n' ∉ f.piece) :
    (joinCrlf (folded prev folds)).splitOn '\n' = rawLines prev folds := by
  induction folds generalizing prev with
  | nil =>
    rw [folded, List.flatMap_nil, List.append_nil, joinCrlf_plain hprev, List.splitOn_eq_singleton hprev]
    rfl
  | cons f folds ih =>
    rw [List.forall_mem_cons] at hfolds
    have hblank : '\n' ∉ f.blank :: f.piece := by
      rw [List.mem_cons, not_or]
      refine ⟨?_, hfolds.1⟩
      unfold Fold.blank
      split <;> decide
    have hrest := ih hblank hfolds.2
    unfold rawLines
    cases hcrlf : f.crlf
    · have htext : folded prev (f :: folds) = prev ++ '\n' :: folded (f.blank :: f.piece) folds := by
        simp [folded, Fold.text, hcrlf]
      rw [htext, joinCrlf_line hprev, List.splitOn_append_cons_self_of_not_mem fun hmem => hprev (mem_chop hmem),
        hrest]
      simp
    · have htext : folded prev (f :: folds) = prev ++ ['\r'] ++ '\n' :: folded (f.blank :: f.piece) folds := by
        simp [folded, Fold.text, hcrlf]
      have hreturn : '\n' ∉ prev ++ ['\r'] := by simp [hprev]
      have hchop : chop (prev ++ ['\r']) = prev := by simp [chop]
      rw [htext, joinCrlf_line hreturn, hchop, List.splitOn_append_cons_self_of_not_mem hprev, hrest]
      simp

theorem blank_fold (f : Fold) : blank f.blank = true := by
  unfold Fold.blank
  split <;> decide

theorem chop_blank (f : Fold) : chop (f.blank :: f.piece) = f.blank :: chop f.piece := by
  cases hpiece : f.piece with
  | nil =>
    have hblank : f.blank ≠ '\r' := by
      unfold Fold.blank
      split <;> decide
    simp [chop, hblank]
  | cons c piece =>
    unfold chop
    rw [List.getLast?_cons_cons]
    split <;> rfl

theorem joined_blank (f : Fold) (folds : List Fold) :
    joined (f.blank :: f.piece) folds = f.blank :: joined f.piece folds := by
  cases folds with
  | nil => rfl
  | cons g folds =>
    rw [joined, joined, chop_blank]
    split <;> rfl

/-- Lines that start with a blank are all joined to the one before. -/
theorem foldl_joinStep (out : List (List Char)) (prev : List Char) (raws : List (List Char))
    (h : ∀ raw ∈ raws, raw.head?.any blank = true) :
    raws.foldl joinStep (out ++ [prev]) = out ++ [prev ++ raws.flatMap List.tail] := by
  induction raws generalizing prev with
  | nil => simp
  | cons raw raws ih =>
    rw [List.forall_mem_cons] at h
    have hstep : joinStep (out ++ [prev]) raw = out ++ [prev ++ raw.tail] := by
      simp [joinStep, h.1]
    rw [List.foldl_cons, hstep, ih _ h.2]
    simp

theorem rawLines_cons (prev : List Char) (folds : List Fold) :
    ∃ first rest, rawLines prev folds = first :: rest ∧ first ++ rest.flatMap List.tail = joined prev folds ∧
      (∀ raw ∈ rest, raw.head?.any blank = true) ∧ (first = prev ∨ first = chop prev) := by
  induction folds generalizing prev with
  | nil => exact ⟨prev, [], rfl, by simp [joined], List.forall_mem_nil _, .inl rfl⟩
  | cons f folds ih =>
    obtain ⟨next, rest, hraw, hjoin, hblank, hnext⟩ := ih (f.blank :: f.piece)
    have hnextBlank : next.head? = some f.blank := by
      rcases hnext with rfl | rfl
      · rfl
      · rw [chop_blank, List.head?_cons]
    obtain ⟨tail, rfl⟩ := List.head?_eq_some_iff.mp hnextBlank
    have hjoined : tail ++ rest.flatMap List.tail = joined f.piece folds := by
      rw [joined_blank, List.cons_append] at hjoin
      exact (List.cons.inj hjoin).2
    refine ⟨if f.crlf then prev else chop prev, (f.blank :: tail) :: rest, by rw [rawLines, hraw], ?_, ?_, ?_⟩
    · rw [List.flatMap_cons, List.tail_cons, hjoined, joined]
    · rw [List.forall_mem_cons]
      exact ⟨by simp [blank_fold], hblank⟩
    · split
      · exact .inl rfl
      · exact .inr rfl

/-! ## Returns that are lost -/

theorem chop_of_not {text : List Char} (h : text.getLast? ≠ some '\r') : chop text = text := if_neg h

theorem joined_of_noReturn {prev : List Char} {folds : List Fold} (h : NoReturnBefore prev folds) :
    joined prev folds = unfolded prev folds := by
  induction folds generalizing prev with
  | nil => simp [joined, unfolded]
  | cons f folds ih =>
    rw [joined, ih h.2]
    cases hcrlf : f.crlf
    · simp [unfolded, chop_of_not (h.1 hcrlf)]
    · simp [unfolded]

theorem count_chop (text : List Char) : (chop text).count '\r' ≤ text.count '\r' ∧
    (text.getLast? = some '\r' → (chop text).count '\r' < text.count '\r') := by
  unfold chop
  split
  · rename_i h
    obtain ⟨front, rfl⟩ := List.getLast?_eq_some_iff.mp h
    simp
  · rename_i h
    exact ⟨Nat.le_refl _, fun hlast => absurd hlast h⟩

theorem count_joined (prev : List Char) (folds : List Fold) :
    (joined prev folds).count '\r' ≤ (unfolded prev folds).count '\r' ∧
      (¬ NoReturnBefore prev folds → (joined prev folds).count '\r' < (unfolded prev folds).count '\r') := by
  induction folds generalizing prev with
  | nil => exact ⟨by simp [joined, unfolded], fun h => absurd trivial h⟩
  | cons f folds ih =>
    obtain ⟨hle, hlt⟩ := ih f.piece
    obtain ⟨hchop, hchop'⟩ := count_chop prev
    have hunfold : unfolded prev (f :: folds) = prev ++ unfolded f.piece folds := by simp [unfolded]
    rw [hunfold, joined, List.count_append, List.count_append]
    cases hcrlf : f.crlf
    · simp only [Bool.false_eq_true, if_false]
      refine ⟨by omega, fun h => ?_⟩
      by_cases hlast : prev.getLast? = some '\r'
      · have hfewer := hchop' hlast
        omega
      · have hrest := hlt fun hno => h ⟨fun _ => hlast, hno⟩
        omega
    · simp only [if_true]
      refine ⟨by omega, fun h => ?_⟩
      have hrest := hlt fun hno => h ⟨fun hfalse => absurd (hcrlf.symm.trans hfalse) (by decide), hno⟩
      omega

end Haruspex.Vcard
