import Haruspex.JavaScript.Text
import Mathlib.Data.List.DropRight

/-! Texts as lists of characters: blanks, lines, and the lazy part of a regular expression. -/
namespace Haruspex.JavaScript.Chars
set_option autoImplicit false

/-! ## Blanks -/

/-- `text.trimEnd()`. -/
def trimEnd (cs : List Char) : List Char := cs.rdropWhile isBlank

/-- `text.trim()`. -/
def trim (cs : List Char) : List Char := trimEnd (cs.dropWhile isBlank)

/-- `text.replace(/\s+/g, ' ')`, after a blank that is already replaced or not. -/
def collapse (inBlank : Bool) : List Char → List Char
  | [] => []
  | c :: cs =>
    if isBlank c then (if inBlank then collapse true cs else ' ' :: collapse true cs)
    else c :: collapse false cs

/-- Neither end is blank. -/
structure Trimmed (cs : List Char) : Prop where
  front : ∀ c ∈ cs.head?, isBlank c = false
  back : ∀ c ∈ cs.getLast?, isBlank c = false

theorem trimEnd_front (cs : List Char) : trimEnd cs <+: cs := List.rdropWhile_prefix isBlank cs

theorem trimEnd_trimEnd (cs : List Char) : trimEnd (trimEnd cs) = trimEnd cs :=
  List.rdropWhile_idempotent isBlank cs

theorem trimEnd_eq_self {cs : List Char} (h : ∀ c ∈ cs.getLast?, isBlank c = false) : trimEnd cs = cs := by
  rw [trimEnd, List.rdropWhile_eq_self_iff]
  intro hne
  rw [h _ (List.getLast_mem_getLast? hne)]
  exact Bool.false_ne_true

theorem trimEnd_back (cs : List Char) : ∀ c ∈ (trimEnd cs).getLast?, isBlank c = false := by
  intro c hc
  obtain ⟨hne, hlast⟩ := List.mem_getLast?_eq_getLast hc
  have hlast' := List.rdropWhile_last_not isBlank cs hne
  rw [hlast]
  exact Bool.eq_false_iff.mpr hlast'

theorem trim_eq_self {cs : List Char} (h : Trimmed cs) : trim cs = cs := by
  cases cs with
  | nil => rfl
  | cons c cs =>
    have hfront := h.front c rfl
    rw [trim, List.dropWhile_cons_of_neg (by simp [hfront]), trimEnd_eq_self h.back]

theorem trimmed_trim (cs : List Char) : Trimmed (trim cs) := by
  refine ⟨fun c hc => ?_, trimEnd_back _⟩
  have hopens := trimEnd_front (cs.dropWhile isBlank)
  have hhead : (trim cs).head? = (cs.dropWhile isBlank).head? := by
    obtain ⟨rest, hrest⟩ := hopens
    rw [← hrest]
    change (trim cs).head? = (trim cs ++ rest).head?
    cases htrim : trim cs with
    | nil =>
      rw [htrim] at hc
      cases hc
    | cons d ds => rfl
  rw [hhead] at hc
  have hneg := List.head?_dropWhile_not isBlank cs
  rw [Option.mem_def.mp hc] at hneg
  simpa using hneg

theorem trim_sublist (cs : List Char) : (trim cs).Sublist cs :=
  (trimEnd_front _).sublist.trans (List.dropWhile_sublist isBlank)

/-- Nothing but blanks. -/
theorem trim_eq_nil_iff {cs : List Char} : trim cs = [] ↔ ∀ c ∈ cs, isBlank c = true := by
  rw [trim, trimEnd, List.rdropWhile_eq_nil_iff]
  constructor
  · intro h c hc
    by_cases hdrop : cs.dropWhile isBlank = []
    · exact List.dropWhile_eq_nil_iff.mp hdrop c hc
    · have hhead := List.head_dropWhile_not isBlank hdrop
      rw [h _ (List.head_mem hdrop)] at hhead
      cases hhead
  · intro h c hc
    exact h c ((List.dropWhile_sublist isBlank).subset hc)

theorem trim_trimEnd_eq_nil_iff {cs : List Char} : trim (trimEnd cs) = [] ↔ trim cs = [] := by
  constructor
  · intro h
    rw [trim_eq_nil_iff] at h
    have hback := trimEnd_back cs
    have hnil : trimEnd cs = [] := by
      by_contra hne
      have hlast := hback _ (List.getLast_mem_getLast? hne)
      rw [h _ (List.getLast_mem hne)] at hlast
      cases hlast
    rw [trim_eq_nil_iff]
    exact List.rdropWhile_eq_nil_iff.mp hnil
  · intro h
    rw [trim_eq_nil_iff] at h ⊢
    exact fun c hc => h c ((trimEnd_front cs).subset hc)

/-! ## Lines -/

/-- What `.` does not match. -/
def isLineTerminator (c : Char) : Bool :=
  c = '\n' || c = '\r' || c = '\u2028' || c = '\u2029'

def OneLine (cs : List Char) : Prop := ∀ c ∈ cs, isLineTerminator c = false

instance (cs : List Char) : Decidable (OneLine cs) :=
  List.decidableBAll (fun c => isLineTerminator c = false) cs

theorem isBlank_of_isLineTerminator {c : Char} (h : isLineTerminator c = true) : isBlank c = true := by
  simp only [isLineTerminator, Bool.or_eq_true, decide_eq_true_eq] at h
  obtain ((rfl | rfl) | rfl) | rfl := h <;> decide

theorem OneLine.sublist {cs ds : List Char} (h : OneLine cs) (hsub : ds.Sublist cs) : OneLine ds :=
  fun c hc => h c (hsub.subset hc)

theorem OneLine.append {cs ds : List Char} (h : OneLine cs) (h' : OneLine ds) : OneLine (cs ++ ds) := by
  intro c hc
  obtain hc | hc := List.mem_append.mp hc
  · exact h c hc
  · exact h' c hc

theorem oneLine_collapse (inBlank : Bool) (cs : List Char) : OneLine (collapse inBlank cs) := by
  induction cs generalizing inBlank with
  | nil => exact fun c hc => by cases hc
  | cons c cs ih =>
    unfold collapse
    split
    · split
      · exact ih true
      · intro d hd
        obtain rfl | hd := List.mem_cons.mp hd
        · rfl
        · exact ih true d hd
    · rename_i hblank
      intro d hd
      obtain rfl | hd := List.mem_cons.mp hd
      · by_contra hterminator
        exact hblank (isBlank_of_isLineTerminator (by simpa using hterminator))
      · exact ih false d hd

theorem not_mem_of_oneLine {cs : List Char} (h : OneLine cs) : '\n' ∉ cs := by
  intro hmem
  have hno := h _ hmem
  simp [isLineTerminator] at hno

/-! ## Matching `(.+?)` before something -/

/-- What `(.+?)` takes before the first place where the rest matches, `seen` being taken already. -/
def lazily {β : Type} (rest? : List Char → Option β) (seen : List Char) : List Char → Option (List Char × β)
  | [] => none
  | c :: cs =>
    if isLineTerminator c then none
    else match rest? cs with
      | some b => some (seen ++ [c], b)
      | none => lazily rest? (seen ++ [c]) cs

variable {β : Type} {rest? : List Char → Option β} {b : β}

theorem lazily_append {text tail seen : List Char} (htext : text ≠ []) (hline : OneLine text)
    (htail : rest? tail = some b)
    (hearly : ∀ front back, text = front ++ back → front ≠ [] → back ≠ [] → rest? (back ++ tail) = none) :
    lazily rest? seen (text ++ tail) = some (seen ++ text, b) := by
  induction text generalizing seen with
  | nil => exact absurd rfl htext
  | cons c text ih =>
    rw [List.cons_append, lazily, if_neg (by rw [hline c List.mem_cons_self]; exact Bool.false_ne_true)]
    by_cases hnil : text = []
    · rw [hnil, List.nil_append, htail]
    · rw [hearly [c] text rfl (List.cons_ne_nil c []) hnil]
      dsimp only
      rw [ih hnil (fun d hd => hline d (List.mem_cons_of_mem c hd)) fun front back heq _ hback =>
        hearly (c :: front) back (by rw [heq, List.cons_append]) (List.cons_ne_nil c front) hback]
      rw [List.append_assoc, List.singleton_append]

theorem lazily_none {text seen : List Char}
    (h : ∀ front back, text = front ++ back → front ≠ [] → rest? back = none) :
    lazily rest? seen text = none := by
  induction text generalizing seen with
  | nil => rfl
  | cons c text ih =>
    rw [lazily]
    split
    · rfl
    · rw [h [c] text rfl (List.cons_ne_nil c [])]
      exact ih fun front back heq _ => h (c :: front) back (by rw [heq, List.cons_append])
        (List.cons_ne_nil c front)

end Haruspex.JavaScript.Chars
