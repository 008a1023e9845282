import Haruspex.FsTools.Fuzzy

/-! Where an edit is made, and what it leaves. -/
namespace Haruspex.FsTools
open LineEndings Marks Patterns
set_option autoImplicit false

variable {nfkc : List Char → List Char} {raw oldStr newStr content old new : List Char} {path : String}

/-! ## Occurrences -/

theorem first_wordPattern {word : List Char} (hword : word ≠ []) (text : List Char) :
    (wordPattern word hword).first text = (cut word text).map (fun parts => ((), parts.2)) := by
  have hmatch (text : List Char) : (wordPattern word hword).match? text =
      if word <+: text then some ((), text.drop word.length) else none := rfl
  induction text with
  | nil => simp [Pattern.first, hmatch, cut, hword]
  | cons c text ih =>
    unfold Pattern.first cut
    rw [hmatch]
    by_cases hhere : word <+: c :: text
    · simp [hhere]
    · rw [if_neg hhere, if_neg hhere, ih, Option.map_map]
      rfl

theorem matchCount_of_cut {word before after text : List Char} (hword : word ≠ [])
    (h : cut word text = some (before, after)) : matchCount word text = matchCount word after + 1 := by
  have hfirst : (wordPattern word hword).first text = some ((), after) := by
    rw [first_wordPattern, h]
    rfl
  rw [matchCount, matchCount, dif_neg hword, dif_neg hword, Pattern.all]
  split
  · rename_i hnone
    rw [hfirst] at hnone
    cases hnone
  · rename_i rest hsome
    rw [hfirst] at hsome
    cases hsome
    rfl

theorem matchCount_eq_zero_iff {word text : List Char} (hword : word ≠ []) :
    matchCount word text = 0 ↔ cut word text = none := by
  cases hcut : cut word text with
  | some parts =>
    rw [matchCount_of_cut hword hcut]
    simp
  | none =>
    have hfirst : (wordPattern word hword).first text = none := by
      rw [first_wordPattern, hcut]
      rfl
    rw [matchCount, dif_neg hword, Pattern.all]
    split
    · simp
    · rename_i hsome
      rw [hfirst] at hsome
      cases hsome

/-! ## The place of an edit -/

/-- The lines from one on agree with those of a text, but for what does not count. -/
def WindowAt (nfkc : List Char → List Char) (content old : List Char) (start : ℕ) : Prop :=
  let norm := normalizeForFuzzyLine nfkc
  start + (splitLines old).length ≤ (splitLines content).length ∧
    (((splitLines content).drop start).take (splitLines old).length).map norm = (splitLines old).map norm

/-- The lines before one, each with its ending. -/
def linesBefore (content : List Char) (start : ℕ) : List Char :=
  ((splitLines content).take start).flatMap (fun line => line ++ ['\n'])

def linesAt (content : List Char) (start count : ℕ) : List Char :=
  joinLines (((splitLines content).drop start).take count)

/-- The lines from one on, each with the ending before it. -/
def linesFrom (content : List Char) (start : ℕ) : List Char :=
  ((splitLines content).drop start).flatMap (fun line => '\n' :: line)

/-- Where a text is found in another: what is before, the place itself, what is after. -/
inductive Place (nfkc : List Char → List Char) (content old : List Char) :
    Bool → List Char → List Char → List Char → Prop where
  /-- The first occurrence. -/
  | exact {before after : List Char} (hfirst : cut old content = some (before, after)) :
      Place nfkc content old false before old after
  /-- Whole lines, where there is no occurrence. -/
  | fuzzy {start : ℕ} (hnone : cut old content = none) (hwindow : WindowAt nfkc content old start)
      (honly : ∀ other, WindowAt nfkc content old other → other = start) :
      Place nfkc content old true (linesBefore content start)
        (linesAt content start (splitLines old).length)
        (linesFrom content (start + (splitLines old).length))

theorem splitLines_ne_nil (text : List Char) : splitLines text ≠ [] := List.splitOn_ne_nil '\n' text

theorem joinLines_splitLines (text : List Char) : joinLines (splitLines text) = text :=
  List.intercalate_splitOn '\n'

/-- Lines put in place of others. -/
theorem joinLines_splice (content : List Char) (start count : ℕ) {lines : List (List Char)}
    (h : lines ≠ []) :
    joinLines ((splitLines content).take start ++ lines ++ (splitLines content).drop (start + count)) =
      linesBefore content start ++ joinLines lines ++ linesFrom content (start + count) := by
  rw [joinLines_after (by simp [h]), joinLines_before _ h]
  rfl

/-- The place is part of the text. -/
theorem Place.content_eq {fuzzy : Bool} {before mid after : List Char}
    (h : Place nfkc content old fuzzy before mid after) : content = before ++ mid ++ after := by
  cases h with
  | exact hfirst => exact cut_some hfirst
  | @fuzzy start hnone hwindow _ =>
    have hlines : (splitLines content).take start ++
        ((splitLines content).drop start).take (splitLines old).length ++
        (splitLines content).drop (start + (splitLines old).length) = splitLines content := by
      rw [List.append_assoc, ← List.drop_drop, List.take_append_drop,
        List.take_append_drop]
    have hpos := List.length_pos_iff.mpr (splitLines_ne_nil old)
    have hmid : ((splitLines content).drop start).take (splitLines old).length ≠ [] := by
      rw [← List.length_pos_iff, List.length_take, List.length_drop]
      have hfits := hwindow.1
      omega
    rw [linesAt, ← joinLines_splice content start _ hmid, hlines, joinLines_splitLines]

/-- There is one place. -/
theorem Place.unique {fuzzy fuzzy' : Bool} {before mid after before' mid' after' : List Char}
    (h : Place nfkc content old fuzzy before mid after)
    (h' : Place nfkc content old fuzzy' before' mid' after') :
    fuzzy = fuzzy' ∧ before = before' ∧ mid = mid' ∧ after = after' := by
  cases h with
  | exact hfirst =>
    cases h' with
    | exact hfirst' =>
      rw [hfirst] at hfirst'
      cases hfirst'
      exact ⟨rfl, rfl, rfl, rfl⟩
    | fuzzy hnone' _ _ =>
      rw [hfirst] at hnone'
      cases hnone'
  | fuzzy hnone hwindow honly =>
    cases h' with
    | exact hfirst' =>
      rw [hnone] at hfirst'
      cases hfirst'
    | fuzzy _ hwindow' _ =>
      rw [honly _ hwindow']
      exact ⟨rfl, rfl, rfl, rfl⟩

/-! ## What the passes do -/

theorem mem_windowStarts (start : ℕ)
    (hfits : (splitLines old).length ≤ (splitLines content).length) :
    start ∈ windowStarts ((splitLines content).map (normalizeForFuzzyLine nfkc))
      ((splitLines old).map (normalizeForFuzzyLine nfkc)) ↔ WindowAt nfkc content old start := by
  rw [windowStarts, List.mem_filter, List.mem_range, List.length_map, List.length_map,
    decide_eq_true_iff, ← List.map_drop, ← List.map_take]
  refine and_congr_left fun _ => ?_
  omega

theorem fuzzyApply_ok {result : List Char × EditResult} (hnone : cut old content = none)
    (h : fuzzyApply nfkc content old new path = .ok result) :
    ∃ before mid after, Place nfkc content old true before mid after ∧
      result.1 = before ++ new ++ after ∧ result.2.usedFuzzy = true := by
  unfold fuzzyApply at h
  dsimp only at h
  split at h
  · cases h
  · rename_i hshort
    rw [List.length_map, List.length_map, not_or, not_lt] at hshort
    split at h
    · cases h
    · rename_i start hstarts
      cases h
      have hmem (other : ℕ) := @mem_windowStarts nfkc _ old other hshort.2
      rw [hstarts] at hmem
      simp only [List.mem_singleton] at hmem
      refine ⟨_, _, _, .fuzzy hnone ((hmem start).mp rfl) fun other => (hmem other).mpr, ?_, rfl⟩
      rw [List.length_map, joinLines_splice content start _ (splitLines_ne_nil new),
        joinLines_splitLines]
    · cases h

theorem editLf_ok {result : List Char × EditResult} (hold : old ≠ [])
    (h : editLf nfkc content old new path = .ok result) :
    ∃ before mid after, Place nfkc content old result.2.usedFuzzy before mid after ∧
      result.1 = before ++ new ++ after ∧
      (result.2.usedFuzzy = false → matchCount old content = 1) := by
  unfold editLf at h
  dsimp only at h
  split at h
  · cases h
  · split at h
    · rename_i hone
      cases h
      cases hcut : cut old content with
      | none =>
        rw [(matchCount_eq_zero_iff hold).mpr hcut] at hone
        cases hone
      | some parts =>
        refine ⟨parts.1, old, parts.2, .exact hcut, ?_, fun _ => hone⟩
        show replaceFirst old new content = _
        rw [replaceFirst, hcut]
    · have hzero : matchCount old content = 0 := by omega
      have hnone := (matchCount_eq_zero_iff hold).mp hzero
      obtain ⟨before, mid, after, hplace, hresult, hfuzzy⟩ := fuzzyApply_ok hnone h
      rw [hfuzzy]
      exact ⟨before, mid, after, hplace, hresult, nofun⟩

theorem stripBom_eq (raw : List Char) : raw = bomOf (stripBom raw).1 ++ (stripBom raw).2 := by
  cases raw with
  | nil => rfl
  | cons c rest =>
    by_cases hbom : c = bom
    · rw [stripBom, if_pos hbom, hbom]
      rfl
    · rw [stripBom, if_neg hbom]
      rfl

/-- The text of a file with LF endings, without a BOM. -/
def lfContent (raw : List Char) : List Char := normalizeToLf (stripBom raw).2

def wasCrlf (raw : List Char) : Bool := ['\r', '\n'] <:+: (stripBom raw).2

/-- An edit puts the new text in one place, and writes all in the endings of the file. -/
theorem applyEdit_ok {outcome : EditOutcome} (h : applyEdit nfkc raw oldStr newStr path = .ok outcome) :
    normalizeToLf oldStr ≠ [] ∧
    ∃ before mid after,
      Place nfkc (lfContent raw) (normalizeToLf oldStr) outcome.result.usedFuzzy before mid after ∧
      outcome.newContent = bomOf (stripBom raw).1 ++
        restoreEndings (wasCrlf raw) (before ++ normalizeToLf newStr ++ after) ∧
      (outcome.result.usedFuzzy = false →
        matchCount (normalizeToLf oldStr) (lfContent raw) = 1) := by
  unfold applyEdit at h
  dsimp only at h
  split at h
  · cases h
  · rename_i hold
    split at h
    · cases h
    · rename_i newContent result hedit
      split at h
      · cases h
      · cases h
        obtain ⟨before, mid, after, hplace, hresult, hcount⟩ := editLf_ok hold hedit
        refine ⟨hold, before, mid, after, hplace, ?_, hcount⟩
        dsimp only at hresult ⊢
        rw [hresult]
        rfl

/-! ## One place only -/

/-- No occurrence starts inside the first one. -/
def FirstApart (content old : List Char) : Prop :=
  ∀ before after, cut old content = some (before, after) →
    ∀ k, 0 < k → k < old.length → ¬ old <+: (old ++ after).drop k

/-- What is replaced stands at one place. -/
structure Unambiguous (nfkc : List Char → List Char) (content old : List Char) (usedFuzzy : Bool) :
    Prop where
  exact : usedFuzzy = false → ∃! offset, old <+: content.drop offset
  fuzzy : usedFuzzy = true →
    (∀ offset, ¬ old <+: content.drop offset) ∧ ∃! start, WindowAt nfkc content old start

theorem prefix_drop_of_cut_none (h : cut old content = none) (offset : ℕ) :
    ¬ old <+: content.drop offset := by
  intro hopens
  refine cut_eq_none_iff.mp h (hopens.isInfix.trans ?_)
  exact (List.drop_suffix offset content).isInfix

/-- One occurrence that does not overlap another, and none inside it. -/
theorem existsUnique_offset_iff (hold : old ≠ []) (hone : matchCount old content = 1) :
    (∃! offset, old <+: content.drop offset) ↔ FirstApart content old := by
  cases hcut : cut old content with
  | none =>
    rw [(matchCount_eq_zero_iff hold).mpr hcut] at hone
    cases hone
  | some parts =>
    obtain ⟨before, after⟩ := parts
    have hcontent := cut_some hcut
    have hrest : cut old after = none := by
      rw [← matchCount_eq_zero_iff hold]
      have hcount := matchCount_of_cut hold hcut
      omega
    have hdrop (k : ℕ) : content.drop (before.length + k) = (old ++ after).drop k := by
      rw [hcontent, List.append_assoc, ← List.drop_drop, List.drop_left]
    have hhere : old <+: content.drop before.length := by
      rw [← Nat.add_zero before.length, hdrop]
      exact List.prefix_append old after
    constructor
    · intro hunique before' after' hcut' k hk _ hinside
      rw [hcut] at hcut'
      cases hcut'
      rw [← hdrop k] at hinside
      have heq := hunique.unique hinside hhere
      omega
    · intro hapart
      refine ⟨before.length, hhere, fun offset hoffset => ?_⟩
      by_contra hne
      by_cases hearly : offset < before.length
      · exact cut_earliest hcut hearly hoffset
      · obtain ⟨k, rfl⟩ := Nat.exists_eq_add_of_le (not_lt.mp hearly)
        rw [hdrop k] at hoffset
        by_cases hinside : k < old.length
        · exact hapart before after hcut k (by omega) hinside hoffset
        · obtain ⟨j, rfl⟩ := Nat.exists_eq_add_of_le (not_lt.mp hinside)
          rw [← List.drop_drop, List.drop_left] at hoffset
          exact prefix_drop_of_cut_none hrest j hoffset

/-- An edit is made at an ambiguous place only where the text overlaps itself. -/
theorem applyEdit_unambiguous_iff (nfkc : List Char → List Char) (raw oldStr newStr : List Char)
    (path : String) (outcome : EditOutcome)
    (h : applyEdit nfkc raw oldStr newStr path = .ok outcome) :
    Unambiguous nfkc (lfContent raw) (normalizeToLf oldStr) outcome.result.usedFuzzy ↔
      FirstApart (lfContent raw) (normalizeToLf oldStr) := by
  obtain ⟨hold, before, mid, after, hplace, -, hcount⟩ := applyEdit_ok h
  generalize outcome.result.usedFuzzy = usedFuzzy at hplace hcount
  cases hplace with
  | exact hfirst =>
    have hunique := existsUnique_offset_iff hold (hcount rfl)
    exact ⟨fun hplace => hunique.mp (hplace.exact rfl), fun hapart => ⟨fun _ => hunique.mpr hapart, nofun⟩⟩
  | @fuzzy start hnone hwindow honly =>
    constructor
    · intro _ before' after' hcut
      rw [hnone] at hcut
      cases hcut
    · intro _
      exact ⟨nofun, fun _ => ⟨prefix_drop_of_cut_none hnone, start, hwindow, honly⟩⟩

theorem applyEdit_aaa : applyEdit id ['a', 'a', 'a'] ['a', 'a'] ['b'] "f" =
    .ok { newContent := ['b', 'a']
          result := { firstChangedLine := 1
                      lineBefore := ['a', 'a', 'a']
                      lineAfter := ['b']
                      usedFuzzy := false } } := by
  have hcount : matchCount ['a', 'a'] ['a', 'a', 'a'] = 1 := by
    rw [matchCount_of_cut (by decide) (show cut ['a', 'a'] ['a', 'a', 'a'] = some ([], ['a']) by decide),
      (matchCount_eq_zero_iff (by decide)).mpr (by decide)]
  have hedit : editLf id ['a', 'a', 'a'] ['a', 'a'] ['b'] "f" =
      .ok (exactApply ['a', 'a', 'a'] ['a', 'a'] ['b']) := by
    rw [editLf, hcount]
    rfl
  have hold : normalizeToLf ['a', 'a'] = ['a', 'a'] := by decide
  have hcontent : normalizeToLf (stripBom ['a', 'a', 'a']).2 = ['a', 'a', 'a'] := by decide
  have hnew : normalizeToLf ['b'] = ['b'] := by decide
  simp only [applyEdit, hold, hcontent, hnew, hedit]
  rfl

/-- The word stands at two places that overlap, and the edit is made. -/
theorem applyEdit_ambiguous : ∃ outcome,
    applyEdit id ['a', 'a', 'a'] ['a', 'a'] ['b'] "f" = .ok outcome ∧
      ¬ Unambiguous id (lfContent ['a', 'a', 'a']) (normalizeToLf ['a', 'a'])
        outcome.result.usedFuzzy := by
  refine ⟨_, applyEdit_aaa, fun hplace => ?_⟩
  have heq : 0 = 1 := (hplace.exact rfl).unique (by decide) (by decide)
  omega

theorem applyEdit_unambiguous_iff_aaa :
    Unambiguous id (lfContent ['a', 'a', 'a']) (normalizeToLf ['a', 'a']) false ↔
      FirstApart (lfContent ['a', 'a', 'a']) (normalizeToLf ['a', 'a']) :=
  applyEdit_unambiguous_iff id ['a', 'a', 'a'] ['a', 'a'] ['b'] "f" _ applyEdit_aaa

/-! ## Nothing else changed -/

/-- A file in three parts, the second of which is what the edit replaces. -/
structure Cut (nfkc : List Char → List Char) (raw oldStr start matched stop : List Char) : Prop where
  eq : raw = start ++ matched ++ stop
  place : ∃ usedFuzzy before mid after,
    Place nfkc (lfContent raw) (normalizeToLf oldStr) usedFuzzy before mid after ∧
      normalizeToLf start = bomOf (stripBom raw).1 ++ before ∧ normalizeToLf matched = mid ∧
      normalizeToLf stop = after

/-- Only the part that is replaced is new. -/
def ChangesOnlyMatch (nfkc : List Char → List Char) (raw oldStr newStr newContent : List Char) : Prop :=
  ∃ start matched stop replacement, Cut nfkc raw oldStr start matched stop ∧
    newContent = start ++ replacement ++ stop ∧ normalizeToLf replacement = normalizeToLf newStr

/-- The file's line endings: CRLF if it has one CRLF, else LF. -/
def InFileEndings (raw text : List Char) : Prop :=
  text = restoreEndings (wasCrlf raw) (normalizeToLf text)

/-- Outside of what is replaced, all line endings are of the one kind. -/
def UniformOutside (nfkc : List Char → List Char) (raw oldStr : List Char) : Prop :=
  ∃ start matched stop, Cut nfkc raw oldStr start matched stop ∧
    InFileEndings raw start ∧ InFileEndings raw stop

theorem restoreEndings_append (crlf : Bool) (x y : List Char) :
    restoreEndings crlf (x ++ y) = restoreEndings crlf x ++ restoreEndings crlf y := by
  cases crlf with
  | true => exact toCrlf_append x y
  | false => rfl

theorem restoreEndings_bom (crlf hadBom : Bool) : restoreEndings crlf (bomOf hadBom) = bomOf hadBom := by
  revert crlf hadBom
  decide

theorem normalizeToLf_restoreEndings (crlf : Bool) {x : List Char} (h : '\r' ∉ x) :
    normalizeToLf (restoreEndings crlf x) = x := by
  cases crlf with
  | true => exact toLf_toCrlf h
  | false => exact toLf_of_no_cr h

/-- Three parts of a text in one kind of endings that do not cut through one. -/
theorem parts_in_endings {crlf : Bool} {a b c w : List Char} (hw : '\r' ∉ w)
    (h : a ++ b ++ c = restoreEndings crlf w)
    (hlength : (normalizeToLf a).length + (normalizeToLf b).length + (normalizeToLf c).length =
      w.length) :
    a = restoreEndings crlf (normalizeToLf a) ∧ c = restoreEndings crlf (normalizeToLf c) := by
  cases crlf with
  | true => exact cut_toCrlf_twice hw h hlength
  | false =>
    have hall : a ++ b ++ c = w := h
    rw [← hall, List.mem_append, List.mem_append, not_or, not_or] at hw
    exact ⟨(toLf_of_no_cr hw.1.1).symm, (toLf_of_no_cr hw.2).symm⟩

/-- An edit changes only what it matched just where the rest is in the endings that all is written in. -/
theorem applyEdit_changesOnlyMatch_iff (nfkc : List Char → List Char)
    (raw oldStr newStr : List Char) (path : String) (outcome : EditOutcome)
    (h : applyEdit nfkc raw oldStr newStr path = .ok outcome) :
    ChangesOnlyMatch nfkc raw oldStr newStr outcome.newContent ↔ UniformOutside nfkc raw oldStr := by
  obtain ⟨-, before, mid, after, hplace, hnew, -⟩ := applyEdit_ok h
  have hbom : bomOf (stripBom raw).1 ++ restoreEndings (wasCrlf raw)
      (before ++ normalizeToLf newStr ++ after) = restoreEndings (wasCrlf raw)
        (bomOf (stripBom raw).1 ++ before ++ normalizeToLf newStr ++ after) := by
    simp only [restoreEndings_append, restoreEndings_bom, List.append_assoc]
  rw [hbom] at hnew
  constructor
  · rintro ⟨start, matched, stop, replacement, hcut, hresult, hreplacement⟩
    refine ⟨start, matched, stop, hcut, ?_⟩
    obtain ⟨fuzzy', before', mid', after', hplace', hstart, -, hstop⟩ := hcut.place
    obtain ⟨-, rfl, rfl, rfl⟩ := hplace.unique hplace'
    refine parts_in_endings (b := replacement) ?_ (hresult.symm.trans hnew) ?_
    · have hcontent := cr_not_mem_toLf (stripBom raw).2
      rw [show toLf (stripBom raw).2 = lfContent raw from rfl, hplace.content_eq] at hcontent
      have hreplaced := cr_not_mem_toLf newStr
      have hmark : '\r' ∉ bomOf (stripBom raw).1 := by
        generalize (stripBom raw).1 = hadBom
        revert hadBom
        decide
      simp only [List.mem_append, not_or] at hcontent ⊢
      exact ⟨⟨⟨hmark, hcontent.1.1⟩, hreplaced⟩, hcontent.2⟩
    · rw [hstart, hreplacement, hstop]
      simp only [List.length_append]
  · rintro ⟨start, matched, stop, hcut, hstart, hstop⟩
    obtain ⟨fuzzy', before', mid', after', hplace', hlfStart, -, hlfStop⟩ := hcut.place
    obtain ⟨-, rfl, rfl, rfl⟩ := hplace.unique hplace'
    refine ⟨start, matched, stop, restoreEndings (wasCrlf raw) (normalizeToLf newStr), hcut, ?_, ?_⟩
    · rw [InFileEndings, hlfStart] at hstart
      rw [InFileEndings, hlfStop] at hstop
      rw [hnew, hstart, hstop, restoreEndings_append, restoreEndings_append]
    · exact normalizeToLf_restoreEndings _ (cr_not_mem_toLf newStr)

/-- A file with one CRLF and one LF. -/
def mixed : List Char := ['a', '\r', '\n', 'b', '\n', 'c']

theorem applyEdit_mixed : applyEdit id mixed ['a'] ['x'] "f" =
    .ok { newContent := ['x', '\r', '\n', 'b', '\r', '\n', 'c']
          result := { firstChangedLine := 1
                      lineBefore := ['a']
                      lineAfter := ['x']
                      usedFuzzy := false } } := by
  have hcount : matchCount ['a'] ['a', '\n', 'b', '\n', 'c'] = 1 := by
    rw [matchCount_of_cut (by decide)
        (show cut ['a'] ['a', '\n', 'b', '\n', 'c'] = some ([], ['\n', 'b', '\n', 'c']) by decide),
      (matchCount_eq_zero_iff (by decide)).mpr (by decide)]
  have hedit : editLf id ['a', '\n', 'b', '\n', 'c'] ['a'] ['x'] "f" =
      .ok (exactApply ['a', '\n', 'b', '\n', 'c'] ['a'] ['x']) := by
    rw [editLf, hcount]
    rfl
  have hold : normalizeToLf ['a'] = ['a'] := by decide
  have hcontent : normalizeToLf (stripBom mixed).2 = ['a', '\n', 'b', '\n', 'c'] := by decide
  have hnew : normalizeToLf ['x'] = ['x'] := by decide
  simp only [applyEdit, hold, hcontent, hnew, hedit]
  rfl

/-- A line ending after the match is rewritten, wherever the match is taken to be. -/
theorem applyEdit_rewritesEnding : ∃ outcome, applyEdit id mixed ['a'] ['x'] "f" = .ok outcome ∧
    ¬ ∃ start matched stop replacement, mixed = start ++ matched ++ stop ∧
      outcome.newContent = start ++ replacement ++ stop ∧
      normalizeToLf matched = normalizeToLf ['a'] ∧
      normalizeToLf replacement = normalizeToLf ['x'] := by
  refine ⟨_, applyEdit_mixed, ?_⟩
  rintro ⟨start, matched, stop, replacement, hraw, hnew, hmatched, hreplacement⟩
  have hone : matched = ['a'] := eq_singleton_of_toLf (by decide) hmatched
  have hone' : replacement = ['x'] := eq_singleton_of_toLf (by decide) hreplacement
  have hlength := congrArg List.length hraw
  have hlength' := congrArg List.length hnew
  simp only [hone, hone', mixed, List.length_append, List.length_cons, List.length_nil] at hlength hlength'
  omega

theorem applyEdit_changesOnlyMatch_iff_mixed :
    ChangesOnlyMatch id mixed ['a'] ['x'] ['x', '\r', '\n', 'b', '\r', '\n', 'c'] ↔
      UniformOutside id mixed ['a'] :=
  applyEdit_changesOnlyMatch_iff id mixed ['a'] ['x'] "f" _ applyEdit_mixed

end Haruspex.FsTools
