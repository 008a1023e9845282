import Mathlib

/-! Runs of whole numbers: the maximal ones of a set, and lists of runs in order. -/
namespace Haruspex.Gaps
set_option autoImplicit false

variable {S T : ℤ → Prop} {a b lo hi x : ℤ}

/-- Neither end of a run of `S` can be moved outwards. -/
structure IsMaximalRun (S : ℤ → Prop) (a b : ℤ) : Prop where
  le : a ≤ b
  all : ∀ x, a ≤ x → x ≤ b → S x
  before : ¬ S (a - 1)
  after : ¬ S (b + 1)

theorem isMaximalRun_congr (h : ∀ x, S x ↔ T x) : IsMaximalRun S a b ↔ IsMaximalRun T a b := by
  have hsame : S = T := funext fun x => propext (h x)
  rw [hsame]

theorem not_isMaximalRun_of_empty (h : ∀ x, ¬ S x) : ¬ IsMaximalRun S a b :=
  fun hrun => h a (hrun.all a le_rfl hrun.le)

/-- Two maximal runs that share a number are one. -/
theorem IsMaximalRun.unique {c d : ℤ} (h : IsMaximalRun S a b) (h' : IsMaximalRun S c d) (hx : a ≤ x ∧ x ≤ b)
    (hx' : c ≤ x ∧ x ≤ d) : a = c ∧ b = d := by
  constructor
  · by_contra hne
    obtain hlt | hlt := Int.lt_or_gt_of_ne hne
    · exact h'.before (h.all (c - 1) (by omega) (by omega))
    · exact h.before (h'.all (a - 1) (by omega) (by omega))
  · by_contra hne
    obtain hlt | hlt := Int.lt_or_gt_of_ne hne
    · exact h.after (h'.all (b + 1) (by omega) (by omega))
    · exact h'.after (h.all (d + 1) (by omega) (by omega))

/-- A run alone. -/
theorem isMaximalRun_Icc (hle : lo ≤ hi) (h : ∀ x, S x ↔ lo ≤ x ∧ x ≤ hi) :
    IsMaximalRun S a b ↔ a = lo ∧ b = hi := by
  have hrun : IsMaximalRun S lo hi :=
    ⟨hle, fun x hlo hhi => (h x).mpr ⟨hlo, hhi⟩, fun hbefore => by have := (h _).mp hbefore; omega,
      fun hafter => by have := (h _).mp hafter; omega⟩
  constructor
  · intro hab
    have hin := (h a).mp (hab.all a le_rfl hab.le)
    exact hab.unique hrun ⟨le_rfl, hab.le⟩ hin
  · rintro ⟨rfl, rfl⟩
    exact hrun

/-- A run in front of others, with a number between that is in none. -/
theorem isMaximalRun_front (hle : lo ≤ hi) (h : ∀ x, S x ↔ (lo ≤ x ∧ x ≤ hi) ∨ T x)
    (hgap : ∀ x, T x → hi + 1 < x) : IsMaximalRun S a b ↔ (a = lo ∧ b = hi) ∨ IsMaximalRun T a b := by
  have hfront : IsMaximalRun S lo hi := by
    refine ⟨hle, fun x hlo hhi => (h x).mpr (.inl ⟨hlo, hhi⟩), fun hbefore => ?_, fun hafter => ?_⟩
    · obtain hin | hrest := (h _).mp hbefore
      · omega
      · have := hgap _ hrest
        omega
    · obtain hin | hrest := (h _).mp hafter
      · omega
      · have := hgap _ hrest
        omega
  have hrest : IsMaximalRun T a b → IsMaximalRun S a b := by
    intro hT
    have ha := hgap a (hT.all a le_rfl hT.le)
    refine ⟨hT.le, fun x hlo hhi => (h x).mpr (.inr (hT.all x hlo hhi)), fun hbefore => ?_, fun hafter => ?_⟩
    · obtain hin | hbefore := (h _).mp hbefore
      · omega
      · exact hT.before hbefore
    · obtain hin | hafter := (h _).mp hafter
      · have := hT.le
        omega
      · exact hT.after hafter
  constructor
  · intro hab
    obtain hin | hT := (h a).mp (hab.all a le_rfl hab.le)
    · exact .inl (hab.unique hfront ⟨le_rfl, hab.le⟩ hin)
    · right
      have ha := hgap a hT
      refine ⟨hab.le, fun x hlo hhi => ?_, fun hbefore => hab.before ((h _).mpr (.inr hbefore)),
        fun hafter => hab.after ((h _).mpr (.inr hafter))⟩
      obtain hin | hx := (h x).mp (hab.all x hlo hhi)
      · omega
      · exact hx
  · rintro (⟨rfl, rfl⟩ | hT)
    · exact hfront
    · exact hrest hT

/-! ## Lists of runs -/

/-- Whether a number is in one of some runs. -/
def Covers (runs : List (ℤ × ℤ)) (x : ℤ) : Prop := ∃ r ∈ runs, r.1 ≤ x ∧ x ≤ r.2

instance (runs : List (ℤ × ℤ)) : DecidablePred (Covers runs) :=
  fun x => inferInstanceAs (Decidable (∃ r ∈ runs, r.1 ≤ x ∧ x ≤ r.2))

def total (runs : List (ℤ × ℤ)) : ℤ := (runs.map (fun r => r.2 - r.1 + 1)).sum

/-- Runs in order and apart have as many numbers as they cover. -/
theorem card_covers {runs : List (ℤ × ℤ)} (hle : ∀ r ∈ runs, r.1 ≤ r.2)
    (hapart : runs.Pairwise (fun r s => r.2 < s.1)) (hlo : ∀ r ∈ runs, lo ≤ r.1) (hhi : ∀ r ∈ runs, r.2 ≤ hi) :
    (((Finset.Icc lo hi).filter (Covers runs)).card : ℤ) = total runs := by
  induction runs with
  | nil => simp [Covers, total]
  | cons r runs ih =>
    rw [List.pairwise_cons] at hapart
    have hrest := ih (fun s hs => hle s (List.mem_cons_of_mem r hs)) hapart.2
      (fun s hs => hlo s (List.mem_cons_of_mem r hs)) (fun s hs => hhi s (List.mem_cons_of_mem r hs))
    have hr := hle r List.mem_cons_self
    have hrlo := hlo r List.mem_cons_self
    have hrhi := hhi r List.mem_cons_self
    have hsplit : (Finset.Icc lo hi).filter (Covers (r :: runs)) =
        Finset.Icc r.1 r.2 ∪ (Finset.Icc lo hi).filter (Covers runs) := by
      ext x
      simp only [Finset.mem_filter, Finset.mem_Icc, Finset.mem_union, Covers, List.exists_mem_cons_iff]
      constructor
      · rintro ⟨hx, hin | hin⟩
        · exact .inl hin
        · exact .inr ⟨hx, hin⟩
      · rintro (hin | ⟨hx, hin⟩)
        · exact ⟨by omega, .inl hin⟩
        · exact ⟨hx, .inr hin⟩
    have hdisjoint : Disjoint (Finset.Icc r.1 r.2) ((Finset.Icc lo hi).filter (Covers runs)) := by
      rw [Finset.disjoint_left]
      intro x hx hcovered
      obtain ⟨s, hs, hin⟩ := (Finset.mem_filter.mp hcovered).2
      have hlt := hapart.1 s hs
      rw [Finset.mem_Icc] at hx
      omega
    rw [hsplit, Finset.card_union_of_disjoint hdisjoint, Nat.cast_add, hrest, Int.card_Icc, total, total,
      List.map_cons, List.sum_cons]
    omega

end Haruspex.Gaps
