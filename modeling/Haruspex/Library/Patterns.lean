import Haruspex.Library.Marks

/-! Searching a text for the matches of a pattern, each from the end of the one before it. Where no match
starts inside another, these are the matches at every place. -/
namespace Haruspex.Patterns
set_option autoImplicit false

/-- What a pattern matches at the start of a text, and where it ends. -/
structure Pattern (α β : Type) where
  match? : List α → Option (β × List α)
  shorter : ∀ {text b rest}, match? text = some (b, rest) → rest.length < text.length

variable {α β : Type}

namespace Pattern

/-- The leftmost match. -/
def first (p : Pattern α β) : List α → Option (β × List α)
  | [] => p.match? []
  | c :: text =>
    match p.match? (c :: text) with
    | some found => some found
    | none => first p text

theorem first_shorter (p : Pattern α β) {text rest : List α} {b : β}
    (h : p.first text = some (b, rest)) : rest.length < text.length := by
  induction text with
  | nil => exact p.shorter h
  | cons c text ih =>
    unfold first at h
    split at h
    · rename_i found hfound
      cases h
      exact p.shorter hfound
    · have hrest := ih h
      simp only [List.length_cons]
      omega

/-- The matches found by going on from the end of each. -/
def all (p : Pattern α β) (text : List α) : List β :=
  match _hfound : p.first text with
  | none => []
  | some (b, rest) => b :: all p rest
termination_by text.length
decreasing_by exact p.first_shorter _hfound

/-- The matches at every place. -/
def everywhere (p : Pattern α β) : List α → List β
  | [] => []
  | c :: text => ((p.match? (c :: text)).map Prod.fst).toList ++ everywhere p text

/-- No match starts inside another. -/
def Apart (p : Pattern α β) : Prop :=
  ∀ {c text b rest}, p.match? (c :: text) = some (b, rest) → p.everywhere text = p.everywhere rest

variable {p : Pattern α β}

theorem match?_nil : p.match? [] = none := by
  cases hfound : p.match? [] with
  | none => rfl
  | some found =>
    obtain ⟨b, rest⟩ := found
    exact absurd (p.shorter hfound) (Nat.not_lt_zero _)

theorem everywhere_first (text : List α) (h : p.first text = none) : p.everywhere text = [] := by
  induction text with
  | nil => rfl
  | cons c text ih =>
    unfold first at h
    split at h
    · cases h
    · rename_i hnone
      rw [everywhere, hnone, ih h]
      rfl

theorem everywhere_first_some (hapart : p.Apart) {text rest : List α} {b : β}
    (h : p.first text = some (b, rest)) : p.everywhere text = b :: p.everywhere rest := by
  induction text with
  | nil => exact absurd (match?_nil.symm.trans h) nofun
  | cons c text ih =>
    unfold first at h
    split at h
    · rename_i found hfound
      cases h
      rw [everywhere, hfound, hapart hfound]
      rfl
    · rename_i hnone
      rw [everywhere, hnone, ih h]
      rfl

/-- Nothing is passed over. -/
theorem all_eq_everywhere (hapart : p.Apart) (text : List α) : p.all text = p.everywhere text := by
  fun_induction all p text with
  | case1 text hnone => exact (everywhere_first text hnone).symm
  | case2 text b rest hfound ih => rw [ih, everywhere_first_some hapart hfound]

/-- A stretch where no match starts. -/
theorem everywhere_skip {mid : List α} (h : ∀ c ∈ mid, ∀ text, p.match? (c :: text) = none)
    (rest : List α) : p.everywhere (mid ++ rest) = p.everywhere rest := by
  induction mid with
  | nil => rfl
  | cons c mid ih =>
    rw [List.cons_append, everywhere, h c List.mem_cons_self, ih fun d hd => h d (by simp [hd])]
    rfl

/-! ### Replacing -/

/-- A text as its matches, each found from the end of the one before it, and the letters between them. -/
def pieces (p : Pattern α β) (text : List α) : List (α ⊕ β) :=
  match text with
  | [] => []
  | c :: text =>
    match _hfound : p.match? (c :: text) with
    | some (b, rest) => .inr b :: pieces p rest
    | none => .inl c :: pieces p text
termination_by text.length
decreasing_by
  · exact p.shorter _hfound
  · exact Nat.lt_succ_self _

/-- The text with something in place of each match. -/
def replace (p : Pattern α β) (f : β → List α) (text : List α) : List α :=
  (p.pieces text).flatMap (Sum.elim (fun c => [c]) f)

variable {c : α} {text rest : List α} {b : β} {f : β → List α}

theorem pieces_nil : p.pieces [] = [] := by
  unfold pieces
  rfl

theorem pieces_match (h : p.match? text = some (b, rest)) : p.pieces text = .inr b :: p.pieces rest := by
  cases text with
  | nil =>
    rw [match?_nil] at h
    cases h
  | cons c text =>
    unfold pieces
    split
    · rename_i b' rest' hfound
      rw [h, Option.some_inj] at hfound
      cases hfound
      rw [← pieces.eq_def]
    · rename_i hnone
      rw [h] at hnone
      cases hnone

theorem pieces_skip (h : p.match? (c :: text) = none) : p.pieces (c :: text) = .inl c :: p.pieces text := by
  rw [pieces]
  split
  · rename_i hfound
    rw [h] at hfound
    cases hfound
  · rfl

theorem all_match (h : p.match? text = some (b, rest)) : p.all text = b :: p.all rest := by
  have hfirst : p.first text = some (b, rest) := by
    cases text with
    | nil => exact h
    | cons c text => rw [first, h]
  rw [all]
  split
  · rename_i hnone
    rw [hfirst] at hnone
    cases hnone
  · rename_i hsome
    rw [hfirst, Option.some_inj] at hsome
    cases hsome
    rfl

theorem all_nil : p.all [] = [] := by
  rw [all]
  split
  · rfl
  · rename_i hsome
    rw [first, match?_nil] at hsome
    cases hsome

theorem all_skip (h : p.match? (c :: text) = none) : p.all (c :: text) = p.all text := by
  have hfirst : p.first (c :: text) = p.first text := by
    rw [first, h]
  rw [all, all]
  split
  · rename_i hnone
    rw [hfirst] at hnone
    rw [hnone]
  · rename_i hsome
    rw [hfirst] at hsome
    rw [hsome]

theorem replace_nil : p.replace f [] = [] := by
  rw [replace, pieces_nil]
  rfl

theorem replace_match (h : p.match? text = some (b, rest)) : p.replace f text = f b ++ p.replace f rest := by
  rw [replace, pieces_match h]
  rfl

theorem replace_skip (h : p.match? (c :: text) = none) : p.replace f (c :: text) = c :: p.replace f text := by
  rw [replace, pieces_skip h]
  rfl

/-- No match starts in a stretch that something comes after. -/
def Quiet (p : Pattern α β) : List α → List α → Prop
  | [], _ => True
  | c :: mid, rest => p.match? (c :: (mid ++ rest)) = none ∧ Quiet p mid rest

theorem Quiet.append {mid mid' : List α} (h : p.Quiet mid (mid' ++ rest)) (h' : p.Quiet mid' rest) :
    p.Quiet (mid ++ mid') rest := by
  induction mid with
  | nil => exact h'
  | cons c mid ih =>
    have hhere := h.1
    rw [← List.append_assoc] at hhere
    exact ⟨hhere, ih h.2⟩

theorem Quiet.all {mid : List α} (h : p.Quiet mid rest) : p.all (mid ++ rest) = p.all rest := by
  induction mid with
  | nil => rfl
  | cons c mid ih => rw [List.cons_append, all_skip h.1, ih h.2]

theorem Quiet.replace {mid : List α} (h : p.Quiet mid rest) : p.replace f (mid ++ rest) = mid ++ p.replace f rest := by
  induction mid with
  | nil => rfl
  | cons c mid ih => rw [List.cons_append, replace_skip h.1, ih h.2, List.cons_append]

/-- From match to match, and over the letters between them. -/
theorem induct (p : Pattern α β) {motive : List α → Prop} (nil : motive [])
    (skip : ∀ c text, p.match? (c :: text) = none → motive text → motive (c :: text))
    (found : ∀ text b rest, p.match? text = some (b, rest) → motive rest → motive text) (text : List α) :
    motive text := by
  fun_induction pieces p text with
  | case1 => exact nil
  | case2 c text b rest hfound ih => exact found _ _ _ hfound ih
  | case3 c text hnone ih => exact skip _ _ hnone ih

/-- What matches are replaced with is part of them. -/
theorem replace_sublist (h : ∀ text b rest, p.match? text = some (b, rest) → (f b ++ rest).Sublist text)
    (text : List α) : (p.replace f text).Sublist text := by
  induction text using p.induct with
  | nil => rw [replace_nil]
  | skip c text hnone ih =>
    rw [replace_skip hnone]
    exact ih.cons_cons c
  | found text b rest hfound ih =>
    rw [replace_match hfound]
    exact ((List.Sublist.refl (f b)).append ih).trans (h text b rest hfound)

/-! ### Letters no match goes over -/

/-- Every match ends short of the letter, and nothing from there on makes a difference to it. -/
def Stops (p : Pattern α β) (d : α) : Prop :=
  ∀ text rest, p.match? (text ++ d :: rest) = (p.match? text).map fun found => (found.1, found.2 ++ d :: rest)

theorem Stops.match?_cons {d : α} (h : p.Stops d) (rest : List α) : p.match? (d :: rest) = none := by
  have hnil := h [] rest
  rwa [match?_nil] at hnil

theorem Stops.skip {d : α} (h : p.Stops d) (rest : List α) (hnone : p.match? text = none) :
    p.match? (text ++ d :: rest) = none := by
  rw [h, hnone]
  rfl

theorem Stops.found {d : α} (h : p.Stops d) {after : List α} (rest : List α) (hfound : p.match? text = some (b, after)) :
    p.match? (text ++ d :: rest) = some (b, after ++ d :: rest) := by
  rw [h, hfound]
  rfl

/-! ### Patterns that start with a mark -/

/-- What the pattern matches starts with a word. -/
def Begins (p : Pattern α β) (word : List α) : Prop :=
  ∀ {text found}, p.match? text = some found → word <+: text

theorem Begins.match?_eq_none {word : List α} (hbegins : p.Begins word) (h : ¬ word <+: text) :
    p.match? text = none := by
  cases hfound : p.match? text with
  | none => rfl
  | some found => exact absurd (hbegins hfound) h

theorem Begins.quiet_plain {x : α} {word mid : List α} (hbegins : p.Begins (x :: word)) (hx : x ∉ mid) :
    p.Quiet mid rest := by
  induction mid with
  | nil => trivial
  | cons c mid ih =>
    rw [List.mem_cons, not_or] at hx
    refine ⟨hbegins.match?_eq_none fun hprefix => ?_, ih hx.2⟩
    exact hx.1 (List.cons_prefix_cons.mp hprefix).1

/-- A mark that goes another way after its first letter. -/
theorem Begins.quiet_mark {x : α} {word tail : List α} (hbegins : p.Begins (x :: word)) (hx : x ∉ tail)
    (hword : ¬ word <+: tail) (htail : ¬ tail <+: word) : p.Quiet (x :: tail) rest := by
  refine ⟨hbegins.match?_eq_none fun hprefix => ?_, hbegins.quiet_plain hx⟩
  obtain hshort | hlong := List.prefix_or_prefix_of_prefix (List.cons_prefix_cons.mp hprefix).2
    (List.prefix_append tail rest)
  · exact hword hshort
  · exact htail hlong

section
variable [DecidableEq α] {x : α} {word mid : List α}

/-- A stretch without the mark, where it ends the text or something starts as the mark does. -/
theorem Begins.quiet (hbegins : p.Begins (x :: word)) (hx : x ∉ word) (hmid : ¬ (x :: word) <:+: mid)
    (hrest : rest = [] ∨ rest.head? = some x) : p.Quiet mid rest := by
  induction mid with
  | nil => trivial
  | cons c mid ih =>
    rw [List.infix_cons_iff, not_or] at hmid
    refine ⟨hbegins.match?_eq_none fun hprefix => hmid.1 ?_, ih hmid.2⟩
    obtain rfl | hhead := hrest
    · rwa [List.append_nil] at hprefix
    · obtain ⟨after, rfl⟩ := List.head?_eq_some_iff.mp hhead
      exact Marks.prefix_of_prefix_append hx (List.cons_ne_nil c mid) hprefix

end

end Pattern

/-! ## Stopping at a mark -/

variable [DecidableEq α]

/-- What comes before the first of some marks, and the rest from there. -/
def upTo (stops : List (List α)) : List α → List α × List α
  | [] => ([], [])
  | c :: text =>
    if ∃ stop ∈ stops, stop <+: c :: text then ([], c :: text)
    else ((c :: (upTo stops text).1), (upTo stops text).2)

variable {stops : List (List α)}

theorem upTo_append (text : List α) : (upTo stops text).1 ++ (upTo stops text).2 = text := by
  induction text with
  | nil => rfl
  | cons c text ih =>
    unfold upTo
    split
    · rfl
    · simp [ih]

theorem upTo_free {stop : List α} (hstop : stop ∈ stops) (hne : stop ≠ []) (text : List α) :
    ¬ stop <:+: (upTo stops text).1 := by
  induction text with
  | nil => rwa [upTo, List.infix_nil]
  | cons c text ih =>
    unfold upTo
    split
    · rwa [List.infix_nil]
    · rename_i hnone
      rw [List.infix_cons_iff, not_or]
      refine ⟨fun hprefix => hnone ⟨stop, hstop, ?_⟩, ih⟩
      have happend := @upTo_append _ _ stops text
      rw [← happend]
      exact hprefix.trans (List.prefix_append (c :: (upTo stops text).1) _)

/-- What is left starts with a mark. -/
theorem upTo_stops (text : List α) : (upTo stops text).2 = [] ∨ ∃ stop ∈ stops, stop <+: (upTo stops text).2 := by
  induction text with
  | nil => exact .inl rfl
  | cons c text ih =>
    unfold upTo
    split
    · rename_i hstop
      exact .inr hstop
    · exact ih

/-- From a later place, it comes to the same mark. -/
theorem upTo_later {text before after : List α} (h : (upTo stops text).1 = before ++ after) :
    upTo stops (after ++ (upTo stops text).2) = (after, (upTo stops text).2) := by
  induction before generalizing text with
  | nil =>
    rw [List.nil_append] at h
    rw [← h, upTo_append]
  | cons c before ih =>
    cases text with
    | nil => cases h
    | cons d text =>
      unfold upTo at h
      split at h
      · cases h
      · rename_i hstop
        have heq : upTo stops (d :: text) = (d :: (upTo stops text).1, (upTo stops text).2) := by
          rw [upTo, if_neg hstop]
        rw [heq]
        exact ih (List.cons.inj h).2

theorem upTo_length (text : List α) : (upTo stops text).2.length ≤ text.length := by
  have happend := congrArg List.length (@upTo_append _ _ stops text)
  rw [List.length_append] at happend
  omega

/-- Nothing starts short of the first mark that starts with a mark. -/
theorem Pattern.everywhere_upTo {p : Pattern α β} (text : List α)
    (h : ∀ {text b rest}, p.match? text = some (b, rest) → ∃ stop ∈ stops, stop <+: text) :
    p.everywhere (upTo stops text).2 = p.everywhere text := by
  induction text with
  | nil => rfl
  | cons c text ih =>
    unfold upTo
    split
    · rfl
    · rename_i hstop
      have hnone : p.match? (c :: text) = none := by
        cases hfound : p.match? (c :: text) with
        | none => rfl
        | some found =>
          obtain ⟨b, rest⟩ := found
          exact absurd (h hfound) hstop
      dsimp only
      rw [ih, everywhere, hnone]
      rfl

end Haruspex.Patterns
