import Mathlib.Data.List.Infix
import Mathlib.Data.Nat.Notation

/-! Line endings. A text whose lines all end in CRLF is the image of one whose lines end in LF, and can be
cut into parts of which the same is true, unless a cut goes through a CRLF. -/
namespace Haruspex.LineEndings
set_option autoImplicit false

/-- Each CRLF as LF: a CR that stands before an LF is left out. -/
def joinCrlf : List Char → List Char
  | [] => []
  | c :: cs => if c = '\r' ∧ cs.head? = some '\n' then joinCrlf cs else c :: joinCrlf cs

/-- All line endings as LF. -/
def toLf (cs : List Char) : List Char := (joinCrlf cs).map (fun c => if c = '\r' then '\n' else c)

/-- Each LF as CRLF. -/
def toCrlf (cs : List Char) : List Char := cs.flatMap (fun c => if c = '\n' then ['\r', '\n'] else [c])

variable {a b c w x y z : List Char}

/-! ## LF -/

theorem cr_not_mem_toLf (x : List Char) : '\r' ∉ toLf x := by
  intro h
  obtain ⟨d, -, hd⟩ := List.mem_map.mp h
  split at hd
  · exact absurd hd (by decide)
  · exact absurd hd ‹_›

theorem toLf_of_no_cr (h : '\r' ∉ x) : toLf x = x := by
  induction x with
  | nil => rfl
  | cons d x ih =>
    have hd : d ≠ '\r' := fun heq => h (heq ▸ List.mem_cons_self)
    have hrest := ih fun hmem => h (List.mem_cons_of_mem d hmem)
    rw [toLf, joinCrlf, if_neg (by simp [hd]), List.map_cons, if_neg hd]
    rw [toLf] at hrest
    rw [hrest]

theorem length_toLf (x : List Char) : (toLf x).length = (joinCrlf x).length := List.length_map _

/-- Where two parts meet, a CR and an LF may become one line ending. -/
theorem length_toLf_append_le (a b : List Char) :
    (toLf (a ++ b)).length ≤ (toLf a).length + (toLf b).length := by
  simp only [length_toLf]
  induction a with
  | nil => simp [joinCrlf]
  | cons d a ih =>
    cases a with
    | nil =>
      have halone : joinCrlf [d] = [d] := by simp [joinCrlf]
      rw [halone, List.singleton_append, joinCrlf]
      by_cases hjoin : d = '\r' ∧ b.head? = some '\n'
      · rw [if_pos hjoin]
        omega
      · rw [if_neg hjoin]
        simp only [List.length_cons, List.length_nil]
        omega
    | cons e a =>
      rw [List.cons_append, joinCrlf, joinCrlf, List.cons_append, List.head?_cons, List.head?_cons]
      rw [List.cons_append] at ih
      by_cases hjoin : d = '\r' ∧ some e = some '\n'
      · rw [if_pos hjoin, if_pos hjoin]
        exact ih
      · rw [if_neg hjoin, if_neg hjoin]
        simp only [List.length_cons]
        omega

theorem joinCrlf_eq_nil (h : joinCrlf x = []) : x = [] := by
  induction x with
  | nil => rfl
  | cons d x ih =>
    rw [joinCrlf] at h
    split at h
    · rename_i hjoin
      rw [ih h] at hjoin
      exact absurd hjoin.2 nofun
    · cases h

/-- One character that is not a line ending comes from itself only. -/
theorem eq_singleton_of_toLf {d : Char} (hd : d ≠ '\n') (h : toLf x = [d]) : x = [d] := by
  cases x with
  | nil => cases h
  | cons e x =>
    rw [toLf, joinCrlf] at h
    by_cases hjoin : e = '\r' ∧ x.head? = some '\n'
    · obtain ⟨rest, rfl⟩ := List.head?_eq_some_iff.mp hjoin.2
      rw [if_pos hjoin, joinCrlf, if_neg (by simp), List.map_cons, List.cons_eq_cons] at h
      exact absurd h.1.symm hd
    · rw [if_neg hjoin, List.map_cons, List.cons_eq_cons, List.map_eq_nil_iff] at h
      rw [joinCrlf_eq_nil h.2]
      by_cases hcr : e = '\r'
      · rw [if_pos hcr] at h
        exact absurd h.1.symm hd
      · rw [if_neg hcr] at h
        rw [h.1]

/-! ## CRLF -/

@[simp] theorem toCrlf_nil : toCrlf [] = [] := rfl

@[simp] theorem toCrlf_append (x y : List Char) : toCrlf (x ++ y) = toCrlf x ++ toCrlf y :=
  List.flatMap_append

theorem toCrlf_lf (x : List Char) : toCrlf ('\n' :: x) = '\r' :: '\n' :: toCrlf x := rfl

theorem toCrlf_cons {d : Char} (hd : d ≠ '\n') (x : List Char) : toCrlf (d :: x) = d :: toCrlf x := by
  rw [toCrlf, List.flatMap_cons, if_neg hd]
  rfl

theorem toLf_crlf (x : List Char) : toLf ('\r' :: '\n' :: x) = '\n' :: toLf x := by
  simp [toLf, joinCrlf]

theorem toLf_lf (x : List Char) : toLf ('\n' :: x) = '\n' :: toLf x := by
  simp [toLf, joinCrlf]

theorem toLf_cons {d : Char} (hd : d ≠ '\r') (x : List Char) : toLf (d :: x) = d :: toLf x := by
  simp [toLf, joinCrlf, hd]

theorem toLf_toCrlf_append (h : '\r' ∉ x) (y : List Char) : toLf (toCrlf x ++ y) = x ++ toLf y := by
  induction x with
  | nil => rfl
  | cons d x ih =>
    have hrest := ih fun hmem => h (List.mem_cons_of_mem d hmem)
    by_cases hd : d = '\n'
    · subst hd
      rw [toCrlf_lf, List.cons_append, List.cons_append, toLf_crlf, hrest]
      rfl
    · have hcr : d ≠ '\r' := fun heq => h (heq ▸ List.mem_cons_self)
      rw [toCrlf_cons hd, List.cons_append, toLf_cons hcr, hrest]
      rfl

theorem toLf_toCrlf (h : '\r' ∉ x) : toLf (toCrlf x) = x := by
  have happend := toLf_toCrlf_append h []
  rwa [List.append_nil, show toLf [] = [] from rfl, List.append_nil] at happend

/-- A cut goes between the lines' characters and endings, or through a CRLF. -/
theorem cut_toCrlf (h : a ++ b = toCrlf w) :
    (∃ u v, w = u ++ v ∧ a = toCrlf u ∧ b = toCrlf v) ∨
      ∃ u v, w = u ++ '\n' :: v ∧ a = toCrlf u ++ ['\r'] ∧ b = '\n' :: toCrlf v := by
  induction w generalizing a with
  | nil =>
    obtain ⟨rfl, rfl⟩ := List.append_eq_nil_iff.mp h
    exact Or.inl ⟨[], [], rfl, rfl, rfl⟩
  | cons d w ih =>
    cases a with
    | nil => exact Or.inl ⟨[], d :: w, rfl, rfl, h⟩
    | cons e a =>
      by_cases hd : d = '\n'
      · subst hd
        rw [toCrlf_lf, List.cons_append, List.cons_eq_cons] at h
        obtain ⟨rfl, h⟩ := h
        cases a with
        | nil => exact Or.inr ⟨[], w, rfl, rfl, h⟩
        | cons f a =>
          rw [List.cons_append, List.cons_eq_cons] at h
          obtain ⟨rfl, h⟩ := h
          obtain ⟨u, v, rfl, rfl, rfl⟩ | ⟨u, v, rfl, rfl, rfl⟩ := ih h
          · exact Or.inl ⟨'\n' :: u, v, rfl, rfl, rfl⟩
          · exact Or.inr ⟨'\n' :: u, v, rfl, rfl, rfl⟩
      · rw [toCrlf_cons hd, List.cons_append, List.cons_eq_cons] at h
        obtain ⟨rfl, h⟩ := h
        obtain ⟨u, v, rfl, rfl, rfl⟩ | ⟨u, v, rfl, rfl, rfl⟩ := ih h
        · exact Or.inl ⟨e :: u, v, rfl, (toCrlf_cons hd u).symm, rfl⟩
        · exact Or.inr ⟨e :: u, v, rfl, by rw [toCrlf_cons hd]; rfl, rfl⟩

/-- If the parts have together as many characters as the whole once all is LF, no cut goes through a
CRLF. -/
theorem cut_toCrlf_of_length (hw : '\r' ∉ w) (h : a ++ b = toCrlf w)
    (hlength : (toLf a).length + (toLf b).length ≤ w.length) :
    a = toCrlf (toLf a) ∧ b = toCrlf (toLf b) := by
  obtain ⟨u, v, rfl, rfl, rfl⟩ | ⟨u, v, rfl, rfl, rfl⟩ := cut_toCrlf h
  · rw [List.mem_append, not_or] at hw
    rw [toLf_toCrlf hw.1, toLf_toCrlf hw.2]
    exact ⟨rfl, rfl⟩
  · rw [List.mem_append, List.mem_cons, not_or, not_or] at hw
    rw [toLf_toCrlf_append hw.1, toLf_lf, toLf_toCrlf hw.2.2] at hlength
    simp only [List.length_append, List.length_cons, show toLf ['\r'] = ['\n'] from rfl,
      List.length_nil] at hlength
    omega

/-- Three parts that have together as many characters as the whole. -/
theorem cut_toCrlf_twice (hw : '\r' ∉ w) (h : a ++ b ++ c = toCrlf w)
    (hlength : (toLf a).length + (toLf b).length + (toLf c).length = w.length) :
    a = toCrlf (toLf a) ∧ c = toCrlf (toLf c) := by
  have hfirst := length_toLf_append_le a b
  have hsecond := length_toLf_append_le b c
  refine ⟨?_, (cut_toCrlf_of_length hw h (by omega)).2⟩
  rw [List.append_assoc] at h
  exact (cut_toCrlf_of_length hw h (by omega)).1

/-! ## Lines -/

def joinLines (lines : List (List Char)) : List Char := ['\n'].intercalate lines

theorem joinLines_before (first : List (List Char)) {lines : List (List Char)} (h : lines ≠ []) :
    joinLines (first ++ lines) = first.flatMap (fun line => line ++ ['\n']) ++ joinLines lines := by
  induction first with
  | nil => rfl
  | cons line first ih =>
    rw [joinLines] at ih ⊢
    rw [List.cons_append, List.intercalate_cons_of_ne_nil (by simp [h]), ih]
    simp

theorem joinLines_after {lines : List (List Char)} (h : lines ≠ []) (last : List (List Char)) :
    joinLines (lines ++ last) = joinLines lines ++ last.flatMap (fun line => '\n' :: line) := by
  induction lines with
  | nil => exact absurd rfl h
  | cons line lines ih =>
    rw [joinLines, joinLines] at ih ⊢
    cases lines with
    | nil =>
      clear ih
      induction last generalizing line with
      | nil => simp
      | cons next last ih =>
        have hrest := ih next (by simp)
        simp only [List.singleton_append, List.intercalate_singleton] at hrest ⊢
        rw [List.intercalate_cons_cons, hrest]
        simp
    | cons next lines =>
      rw [List.cons_append, List.cons_append, List.intercalate_cons_cons, List.intercalate_cons_cons]
      rw [List.cons_append] at ih
      rw [ih (List.cons_ne_nil next lines)]
      simp

end Haruspex.LineEndings
