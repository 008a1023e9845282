import Haruspex.CodingLoop.Todo

/-! What each line of the checklist file is read as. -/
namespace Haruspex.CodingLoop
open JavaScript (isBlank)
open JavaScript.Chars
set_option autoImplicit false

variable {text rest tail : Text}

/-! ## Words and numbers -/

theorem after_append (word rest : Text) : after word (word ++ rest) = some rest := by
  rw [after, if_pos (List.prefix_append word rest), List.drop_left]

theorem eq_of_after {word : Text} (h : after word text = some rest) : text = word ++ rest := by
  unfold after at h
  split at h
  · rename_i hopens
    cases h
    exact (List.prefix_iff_eq_append.mp hopens).symm
  · cases h

/-- Digits that end where the digits of a text end. -/
theorem span_digits {ds : Text} (hds : ∀ c ∈ ds, c.isDigit = true)
    (hrest : ∀ c ∈ rest.head?, c.isDigit = false) :
    (ds ++ rest).takeWhile Char.isDigit = ds ∧ (ds ++ rest).dropWhile Char.isDigit = rest := by
  have hend : rest.takeWhile Char.isDigit = [] ∧ rest.dropWhile Char.isDigit = rest := by
    cases rest with
    | nil => exact ⟨rfl, rfl⟩
    | cons c rest =>
      have hc := hrest c rfl
      rw [List.takeWhile_cons_of_neg (by simp [hc]), List.dropWhile_cons_of_neg (by simp [hc])]
      exact ⟨rfl, rfl⟩
  rw [List.takeWhile_append_of_pos hds, List.dropWhile_append_of_pos hds, hend.1, hend.2, List.append_nil]
  exact ⟨rfl, rfl⟩

theorem isDigit_decimal (n : ℕ) : ∀ c ∈ decimal n, c.isDigit = true := by
  intro c hc
  exact Nat.isDigit_of_mem_toDigits (by decide) (by decide) hc

theorem parseInt_decimal (n : ℕ) : parseInt (decimal n) = n := Nat.ofDigitChars_ten_toDigits

theorem digits_decimal (n : ℕ) (hrest : ∀ c ∈ rest.head?, c.isDigit = false) :
    digits (decimal n ++ rest) = some (n, rest) := by
  obtain ⟨htake, hdrop⟩ := span_digits (isDigit_decimal n) hrest
  have hne : decimal n ≠ [] := Nat.toDigits_ne_nil
  rw [digits, htake, hdrop, if_neg hne, parseInt_decimal]

/-- What reading digits leaves. -/
theorem eq_of_digits {n : ℕ} (h : digits text = some (n, rest)) :
    ∃ ds : Text, (∀ c ∈ ds, c.isDigit = true) ∧ text = ds ++ rest := by
  unfold digits at h
  dsimp only at h
  split at h
  · cases h
  · cases h
    exact ⟨_, fun c hc => List.mem_takeWhile_imp hc, List.takeWhile_append_dropWhile.symm⟩

structure IsId (id : Text) : Prop where
  digits : ∀ c ∈ id, c.isDigit = true
  long : 2 ≤ id.length

theorem IsId.ne_nil {id : Text} (h : IsId id) : id ≠ [] := by
  intro hnil
  have hlong := h.long
  rw [hnil] at hlong
  exact absurd hlong (by simp)

theorem twoDigits_append {id : Text} (h : IsId id) (hrest : ∀ c ∈ rest.head?, c.isDigit = false) :
    twoDigits (id ++ rest) = some (id, rest) := by
  obtain ⟨htake, hdrop⟩ := span_digits h.digits hrest
  have hlong := h.long
  rw [twoDigits, htake, hdrop, if_neg (by omega)]

theorem isId_of_twoDigits {id : Text} (h : twoDigits text = some (id, rest)) : IsId id := by
  unfold twoDigits at h
  dsimp only at h
  split at h
  · cases h
  · rename_i hlong
    cases h
    exact ⟨fun c hc => List.mem_takeWhile_imp hc, by omega⟩

theorem oneLine_digits {ds : Text} (h : ∀ c ∈ ds, c.isDigit = true) : OneLine ds := by
  intro c hc
  have hdigit := h c hc
  by_contra hterminator
  simp only [Bool.not_eq_false] at hterminator
  simp only [isLineTerminator, Bool.or_eq_true, decide_eq_true_eq] at hterminator
  obtain ((rfl | rfl) | rfl) | rfl := hterminator <;> simp at hdigit

/-! ## Suffixes -/

/-- What a suffix that was read looks like. -/
def Opens (text : Text) : Prop := ∃ tail, text = ' ' :: '(' :: tail ∧ '(' ∉ tail

theorem not_mem_digits {ds : Text} (h : ∀ c ∈ ds, c.isDigit = true) : '(' ∉ ds := by
  intro hmem
  have hdigit := h _ hmem
  simp at hdigit

theorem opens_itemSuffix (attempts : ℕ) (repair : Bool) : Opens (itemSuffix attempts repair) := by
  refine ⟨_, rfl, ?_⟩
  have hdigits := not_mem_digits (isDigit_decimal attempts)
  cases repair <;> simp [hdigits]

theorem opens_phaseSuffix (phase : PhaseInfo) : Opens (phaseSuffix phase) := by
  refine ⟨_, rfl, ?_⟩
  have hrepairs := not_mem_digits (isDigit_decimal phase.repairs)
  have hbuilds := not_mem_digits (isDigit_decimal phase.builds)
  have hword : '(' ∉ verifyWord phase.verify := by cases phase.verify <;> decide
  simp [hrepairs, hbuilds, hword]

theorem opens_of_itemSuffix? {b : ℕ × Bool} (h : itemSuffix? text = some b) : text = [] ∨ Opens text := by
  unfold itemSuffix? at h
  split at h
  · exact .inl ‹_›
  · obtain ⟨rest, hafter, h⟩ := Option.bind_eq_some_iff.mp h
    obtain ⟨⟨attempts, rest'⟩, hdigits, h⟩ := Option.bind_eq_some_iff.mp h
    obtain ⟨ds, hds, hrest⟩ := eq_of_digits hdigits
    right
    rw [eq_of_after hafter, hrest]
    refine ⟨_, rfl, ?_⟩
    have hno := not_mem_digits hds
    dsimp only at h
    split at h
    · rename_i hend
      rw [hend]
      simp [hno]
    · split at h
      · rename_i hend
        rw [hend]
        simp [hno]
      · cases h

theorem eq_of_verifyWord? {verify : PhaseVerifyStatus} (h : verifyWord? text = some (verify, rest)) :
    text = verifyWord verify ++ rest := by
  unfold verifyWord? at h
  obtain ⟨verify', -, h⟩ := List.exists_of_findSome?_eq_some h
  obtain ⟨rest', hafter, heq⟩ := Option.map_eq_some_iff.mp h
  cases heq
  exact eq_of_after hafter

theorem opens_of_phaseSuffix? {b : PhaseVerifyStatus × ℕ × ℕ} (h : phaseSuffix? text = some b) :
    Opens text := by
  unfold phaseSuffix? at h
  obtain ⟨rest₁, hafter₁, h⟩ := Option.bind_eq_some_iff.mp h
  obtain ⟨⟨verify, rest₂⟩, hword, h⟩ := Option.bind_eq_some_iff.mp h
  obtain ⟨rest₃, hafter₃, h⟩ := Option.bind_eq_some_iff.mp h
  obtain ⟨⟨repairs, rest₄⟩, hdigits₄, h⟩ := Option.bind_eq_some_iff.mp h
  obtain ⟨ds, hds, hrest₄⟩ := eq_of_digits hdigits₄
  rw [eq_of_after hafter₁, eq_of_verifyWord? hword, eq_of_after hafter₃, hrest₄]
  refine ⟨_, rfl, ?_⟩
  have hno := not_mem_digits hds
  have hverify : '(' ∉ verifyWord verify := by cases verify <;> decide
  dsimp only at h
  split at h
  · rename_i hend
    rw [hend]
    simp [hno, hverify]
  · obtain ⟨rest₅, hafter₅, h⟩ := Option.bind_eq_some_iff.mp h
    obtain ⟨⟨builds, rest₆⟩, hdigits₆, h⟩ := Option.bind_eq_some_iff.mp h
    obtain ⟨ds', hds', hrest₆⟩ := eq_of_digits hdigits₆
    have hno' := not_mem_digits hds'
    dsimp only at h
    split at h
    · rename_i hend
      rw [eq_of_after hafter₅, hrest₆, hend]
      simp [hno, hno', hverify]
    · cases h

/-- Nothing that ends in a suffix, but the suffix itself, is one. -/
theorem not_opens_append {back suffix : Text} (hback : back ≠ []) (h : Opens suffix) :
    ¬ Opens (back ++ suffix) := by
  rintro ⟨tail, heq, hno⟩
  obtain ⟨tail', rfl, -⟩ := h
  match back with
  | [] => exact hback rfl
  | [c] => simp at heq
  | c :: d :: back =>
    simp only [List.cons_append, List.cons.injEq] at heq
    rw [← heq.2.2] at hno
    simp at hno

/-- Nothing that is cut off at the front of a suffix leaves one. -/
theorem not_opens_cut {front back : Text} (hfront : front ≠ []) (h : Opens (front ++ back)) : ¬ Opens back := by
  rintro ⟨tail, rfl, -⟩
  obtain ⟨tail', heq, hno⟩ := h
  match front with
  | [] => exact hfront rfl
  | [c] => simp at heq
  | c :: d :: front =>
    simp only [List.cons_append, List.cons.injEq] at heq
    rw [← heq.2.2] at hno
    simp at hno

theorem itemSuffix?_itemSuffix (attempts : ℕ) (repair : Bool) :
    itemSuffix? (itemSuffix attempts repair) = some (attempts, repair) := by
  rw [itemSuffix?, if_neg (by simp [itemSuffix])]
  simp only [itemSuffix, List.append_assoc, after_append, Option.bind_eq_bind, Option.bind_some]
  cases repair with
  | false =>
    rw [if_neg Bool.false_ne_true, List.nil_append, digits_decimal attempts (by simp)]
    rfl
  | true =>
    rw [if_pos rfl, digits_decimal attempts (by simp)]
    rfl

theorem verifyWord?_verifyWord (verify : PhaseVerifyStatus) (rest : Text) :
    verifyWord? (verifyWord verify ++ rest) = some (verify, rest) := by
  cases verify <;> simp [verifyWord?, verifyWord, after]

theorem phaseSuffix?_phaseSuffix (phase : PhaseInfo) :
    phaseSuffix? (phaseSuffix phase) = some (phase.verify, phase.repairs, phase.builds) := by
  rw [phaseSuffix?]
  simp only [phaseSuffix, List.append_assoc, after_append, Option.bind_eq_bind, Option.bind_some,
    verifyWord?_verifyWord]
  rw [digits_decimal phase.repairs (by simp)]
  simp only [Option.bind_some, after_append]
  rw [if_neg (by simp), digits_decimal phase.builds (by simp)]
  rfl

theorem oneLine_itemSuffix (attempts : ℕ) (repair : Bool) : OneLine (itemSuffix attempts repair) := by
  have hopen : OneLine [' ', '(', 'a', 't', 't', 'e', 'm', 'p', 't', 's', ':', ' '] := by decide
  have hrepair : OneLine (if repair then [',', ' ', 'r', 'e', 'p', 'a', 'i', 'r'] else []) := by
    cases repair <;> decide
  have hclose : OneLine [')'] := by decide
  exact ((hopen.append (oneLine_digits (isDigit_decimal attempts))).append hrepair).append hclose

/-! ## Lines -/

structure TaskItem.Wellformed (item : TaskItem) : Prop where
  id : IsId item.id
  line : OneLine item.title
  trimmed : Trimmed item.title

structure PhaseInfo.Wellformed (phase : PhaseInfo) : Prop where
  id : IsId phase.id
  line : OneLine phase.title
  trimmed : Trimmed phase.title

/-- Ids are numbers, and titles are on one line, without blanks around them. -/
structure LoopPlan.Wellformed (plan : LoopPlan) : Prop where
  phases : ∀ phase ∈ plan.phases, phase.Wellformed
  items : ∀ item ∈ plan.items, item.Wellformed

/-- An item as its line is read: without a title, the suffix is taken for it. -/
def readItem (item : TaskItem) : TaskItem :=
  if item.title = [] then
    ⟨item.id, trim (itemSuffix item.attempts item.repair), [], item.status, 0, none, false⟩
  else { item with description := [], phase := none }

theorem itemLine?_itemLine {item : TaskItem} (h : item.Wellformed) :
    itemLine? (itemLine item) = some (readItem item) := by
  have hmark : markStatus (statusMark item.status) = some item.status := by cases item.status <;> rfl
  have hopens := opens_itemSuffix item.attempts item.repair
  have hid := @twoDigits_append (['.', ' '] ++ (item.title ++ itemSuffix item.attempts item.repair)) _
    h.id (by simp)
  simp only [itemLine, itemLine?, List.append_assoc, List.cons_append, List.nil_append,
    Option.bind_eq_bind] at hid ⊢
  rw [hmark, Option.bind_some, hid, Option.bind_some]
  dsimp only
  have hafter := after_append ['.', ' '] (item.title ++ itemSuffix item.attempts item.repair)
  simp only [List.cons_append, List.nil_append] at hafter
  rw [hafter, Option.bind_some, readItem]
  by_cases htitle : item.title = []
  · have hearly : ∀ front back, itemSuffix item.attempts item.repair = front ++ back → front ≠ [] →
        back ≠ [] → itemSuffix? (back ++ []) = none := by
      intro front back heq hfront hback
      rw [List.append_nil]
      by_contra hsome
      obtain ⟨b, hb⟩ := Option.ne_none_iff_exists'.mp hsome
      rw [heq] at hopens
      obtain hnil | hopens' := opens_of_itemSuffix? hb
      · exact hback hnil
      · exact not_opens_cut hfront hopens hopens'
    have hlazy := @lazily_append _ itemSuffix? _ _ [] [] (by simp [itemSuffix])
      (oneLine_itemSuffix item.attempts item.repair) rfl hearly
    rw [List.append_nil, List.nil_append] at hlazy
    rw [if_pos htitle, htitle, List.nil_append, hlazy]
    rfl
  · have hearly : ∀ front back, item.title = front ++ back → front ≠ [] → back ≠ [] →
        itemSuffix? (back ++ itemSuffix item.attempts item.repair) = none := by
      intro front back _ _ hback
      by_contra hsome
      obtain ⟨b, hb⟩ := Option.ne_none_iff_exists'.mp hsome
      obtain hnil | hopens' := opens_of_itemSuffix? hb
      · exact hback (List.append_eq_nil_iff.mp hnil).1
      · exact not_opens_append hback hopens hopens'
    rw [lazily_append htitle h.line (itemSuffix?_itemSuffix _ _) hearly, if_neg htitle]
    simp [trim_eq_self h.trimmed]

/-- A heading without a title is not read. -/
theorem phaseLine?_phaseLine {phase : PhaseInfo} (h : phase.Wellformed) :
    phaseLine? (phaseLine phase) = if phase.title = [] then none else some phase := by
  have hopens := opens_phaseSuffix phase
  have hid := @twoDigits_append ([' ', '—', ' '] ++ (phase.title ++ phaseSuffix phase)) _
    h.id (by simp)
  simp only [phaseLine, phaseLine?, List.append_assoc, after_append, Option.bind_eq_bind, Option.bind_some]
  rw [hid]
  simp only [Option.bind_some, after_append]
  by_cases htitle : phase.title = []
  · rw [if_pos htitle, htitle, List.nil_append, lazily_none]
    · rfl
    · intro front back heq hfront
      by_contra hsome
      obtain ⟨b, hb⟩ := Option.ne_none_iff_exists'.mp hsome
      rw [heq] at hopens
      exact not_opens_cut hfront hopens (opens_of_phaseSuffix? hb)
  · have hearly : ∀ front back, phase.title = front ++ back → front ≠ [] → back ≠ [] →
        phaseSuffix? (back ++ phaseSuffix phase) = none := by
      intro front back _ _ hback
      by_contra hsome
      obtain ⟨b, hb⟩ := Option.ne_none_iff_exists'.mp hsome
      exact not_opens_append hback hopens (opens_of_phaseSuffix? hb)
    rw [lazily_append htitle h.line (phaseSuffix?_phaseSuffix phase) hearly, if_neg htitle]
    simp [trim_eq_self h.trimmed]

/-! ## What is read is well-formed -/

theorem lazily_oneLine {β : Type} {rest? : Text → Option β} {seen title : Text} {b : β}
    (hseen : OneLine seen) (h : lazily rest? seen text = some (title, b)) : OneLine title := by
  induction text generalizing seen with
  | nil => cases h
  | cons c text ih =>
    rw [lazily] at h
    split at h
    · cases h
    · rename_i hc
      have hnext : OneLine (seen ++ [c]) := hseen.append fun d hd => by
        rw [List.mem_singleton.mp hd]
        simpa using hc
      split at h
      · cases h
        exact hnext
      · exact ih hnext h

theorem wellformed_of_itemLine? {line : Text} {item : TaskItem} (h : itemLine? line = some item) :
    item.Wellformed := by
  unfold itemLine? at h
  split at h
  · obtain ⟨status, -, h⟩ := Option.bind_eq_some_iff.mp h
    obtain ⟨⟨id, rest⟩, hid, h⟩ := Option.bind_eq_some_iff.mp h
    obtain ⟨rest', -, h⟩ := Option.bind_eq_some_iff.mp h
    obtain ⟨⟨title, attempts, repair⟩, htitle, h⟩ := Option.bind_eq_some_iff.mp h
    cases h
    have hline : OneLine title := lazily_oneLine (fun c hc => by cases hc) htitle
    exact ⟨isId_of_twoDigits hid, hline.sublist (trim_sublist title), trimmed_trim title⟩
  · cases h

theorem wellformed_of_phaseLine? {line : Text} {phase : PhaseInfo} (h : phaseLine? line = some phase) :
    phase.Wellformed := by
  obtain ⟨rest, -, h⟩ := Option.bind_eq_some_iff.mp h
  obtain ⟨⟨id, rest⟩, hid, h⟩ := Option.bind_eq_some_iff.mp h
  obtain ⟨rest', -, h⟩ := Option.bind_eq_some_iff.mp h
  obtain ⟨⟨title, verify, repairs, builds⟩, htitle, h⟩ := Option.bind_eq_some_iff.mp h
  cases h
  have hline : OneLine title := lazily_oneLine (fun c hc => by cases hc) htitle
  exact ⟨isId_of_twoDigits hid, hline.sublist (trim_sublist title), trimmed_trim title⟩

end Haruspex.CodingLoop
