import Mathlib.Algebra.Order.Ring.Nat
import Mathlib.Logic.Function.Basic
import Mathlib.Logic.Relation

/-! Disjoint sets as a forest of parents, shortened on the way up. -/
namespace Haruspex.Library
set_option autoImplicit false

variable {A : Type} [DecidableEq A]

/-- Every place has a parent, a root itself. `height` rises towards the root: no way up goes round. -/
structure Forest (A : Type) where
  parent : A → A
  height : A → ℕ
  top : ℕ
  climbs : ∀ i, parent i ≠ i → height i < height (parent i)
  below : ∀ i, height i ≤ top

namespace Forest

/-- Every place its own root. -/
def single : Forest A where
  parent := id
  height _ := 0
  top := 0
  climbs _ h := absurd rfl h
  below _ := le_rfl

theorem climbs_twice (f : Forest A) {i : A} (h : f.parent i ≠ i) : f.height i < f.height (f.parent (f.parent i)) := by
  by_cases hp : f.parent (f.parent i) = f.parent i
  · rw [hp]
    exact f.climbs i h
  · exact (f.climbs i h).trans (f.climbs _ hp)

/-- A place's parent becomes its parent's parent. -/
def halve (f : Forest A) (i : A) : Forest A where
  parent := Function.update f.parent i (f.parent (f.parent i))
  height := f.height
  top := f.top
  below := f.below
  climbs := by
    intro j hj
    by_cases hji : j = i
    · subst hji
      rw [Function.update_self] at hj ⊢
      by_cases hp : f.parent j = j
      · rw [hp, hp] at hj
        exact absurd rfl hj
      · exact f.climbs_twice hp
    · rw [Function.update_of_ne hji] at hj ⊢
      exact f.climbs j hj

/-- The root of a place, and the forest with the way there shortened. -/
def find (f : Forest A) (i : A) : Forest A × A :=
  if f.parent i = i then (f, i) else find (f.halve i) ((f.halve i).parent i)
termination_by f.top - f.height i
decreasing_by
  rename_i hi
  have hclimb := f.climbs_twice hi
  have hbelow := f.below (f.parent (f.parent i))
  simp only [halve, Function.update_self]
  omega

/-- The root of a place. -/
def root (f : Forest A) (i : A) : A :=
  if f.parent i = i then i else root f (f.parent i)
termination_by f.top - f.height i
decreasing_by
  rename_i hi
  have hclimb := f.climbs i hi
  have hbelow := f.below (f.parent i)
  omega

/-! ## Roots -/

omit [DecidableEq A] in
/-- Induction down from the roots. -/
theorem climb (f : Forest A) {P : A → Prop} (h : ∀ i, (f.parent i ≠ i → P (f.parent i)) → P i) (i : A) : P i := by
  induction hn : f.top - f.height i using Nat.strongRecOn generalizing i with
  | ind n ih =>
    refine h i fun hi => ?_
    have hclimb := f.climbs i hi
    have hbelow := f.below (f.parent i)
    exact ih (f.top - f.height (f.parent i)) (by omega) (f.parent i) rfl

theorem root_of_parent {f : Forest A} {i : A} (h : f.parent i = i) : f.root i = i := by
  rw [root, if_pos h]

@[simp] theorem root_parent (f : Forest A) (i : A) : f.root (f.parent i) = f.root i := by
  by_cases h : f.parent i = i
  · rw [h]
  · rw [root.eq_1 f i, if_neg h]

@[simp] theorem parent_root (f : Forest A) (i : A) : f.parent (f.root i) = f.root i := by
  induction i using f.climb with
  | h i ih =>
    by_cases h : f.parent i = i
    · rw [root_of_parent h, h]
    · have htop := ih h
      rwa [root_parent] at htop

@[simp] theorem root_root (f : Forest A) (i : A) : f.root (f.root i) = f.root i := root_of_parent (parent_root f i)

theorem root_eq_iff {f : Forest A} {i : A} : f.root i = i ↔ f.parent i = i :=
  ⟨fun h => by rw [← h, parent_root], root_of_parent⟩

/-- Parents moved within their trees change no root. -/
theorem root_congr {f g : Forest A} (hroot : ∀ i, f.root (g.parent i) = f.root i)
    (hsame : ∀ i, g.parent i = i → f.parent i = i) (i : A) : g.root i = f.root i := by
  induction i using g.climb with
  | h i ih =>
    by_cases h : g.parent i = i
    · rw [root_of_parent h, root_of_parent (hsame i h)]
    · rw [← root_parent, ih h, hroot]

theorem halve_root (f : Forest A) (i j : A) : (f.halve i).root j = f.root j := by
  refine root_congr (fun k => ?_) (fun k hk => ?_) j
  · by_cases hki : k = i
    · subst hki
      simp [halve]
    · simp [halve, hki]
  · by_cases hki : k = i
    · subst hki
      by_contra hp
      have hclimb := f.climbs_twice hp
      simp only [halve, Function.update_self] at hk
      rw [hk] at hclimb
      exact lt_irrefl _ hclimb
    · simpa [halve, hki] using hk

theorem find_spec (f : Forest A) (i : A) : (f.find i).2 = f.root i ∧ ∀ j, (f.find i).1.root j = f.root j := by
  induction f, i using find.induct with
  | case1 f i h =>
    rw [find, if_pos h]
    exact ⟨(root_of_parent h).symm, fun j => rfl⟩
  | case2 f i h ih =>
    rw [find, if_neg h]
    obtain ⟨hfound, hroots⟩ := ih
    refine ⟨?_, fun j => (hroots j).trans (f.halve_root i j)⟩
    rw [hfound, root_parent, halve_root]

@[simp] theorem find_snd (f : Forest A) (i : A) : (f.find i).2 = f.root i := (f.find_spec i).1

@[simp] theorem find_root (f : Forest A) (i j : A) : (f.find i).1.root j = f.root j := (f.find_spec i).2 j

/-! ## Joining -/

/-- A root put under another root. -/
def link (f : Forest A) (ra rb : A) (ha : f.parent ra = ra) (hab : ra ≠ rb) : Forest A where
  parent := Function.update f.parent rb ra
  height := Function.update f.height ra (max (f.height ra) (f.height rb + 1))
  top := max f.top (f.height rb + 1)
  climbs := by
    intro i hi
    by_cases hib : i = rb
    · subst hib
      rw [Function.update_self, Function.update_self, Function.update_of_ne hab.symm]
      omega
    · rw [Function.update_of_ne hib] at hi ⊢
      have hia : i ≠ ra := by
        rintro rfl
        exact hi ha
      have hclimb := f.climbs i hi
      rw [Function.update_of_ne hia]
      by_cases hp : f.parent i = ra
      · rw [hp, Function.update_self]
        rw [hp] at hclimb
        omega
      · rwa [Function.update_of_ne hp]
  below := by
    intro i
    by_cases hia : i = ra
    · subst hia
      rw [Function.update_self]
      have hbelow := f.below i
      omega
    · rw [Function.update_of_ne hia]
      exact (f.below i).trans (le_max_left _ _)

theorem link_root (f : Forest A) {ra rb : A} (ha : f.parent ra = ra) (hb : f.parent rb = rb) (hab : ra ≠ rb) (i : A) :
    (f.link ra rb ha hab).root i = if f.root i = rb then ra else f.root i := by
  have hra : (f.link ra rb ha hab).parent ra = ra := by simp [link, hab, ha]
  induction i using f.climb with
  | h i ih =>
    by_cases hi : i = rb
    · subst hi
      have hparent : (f.link ra i ha hab).parent i = ra := by simp [link]
      rw [root_of_parent hb, if_pos rfl, ← root_parent, hparent, root_of_parent hra]
    · have hparent : (f.link ra rb ha hab).parent i = f.parent i := by simp [link, hi]
      by_cases h : f.parent i = i
      · rw [root_of_parent h, if_neg hi, root_of_parent (hparent.trans h)]
      · rw [← root_parent, hparent, ih h, root_parent]

theorem find_stays (f : Forest A) (a b : A) : ((f.find a).1.find b).1.parent (f.find a).2 = (f.find a).2 :=
  root_eq_iff.mp (by rw [find_root, find_root, find_snd, root_root])

/-- The trees of two places made one. -/
def join (f : Forest A) (a b : A) : Forest A :=
  let fa := f.find a
  let fb := fa.1.find b
  if h : fa.2 ≠ fb.2 then fb.1.link fa.2 fb.2 (f.find_stays a b) h
  else fb.1

/-- Two places of one tree. -/
def Same (f : Forest A) (i j : A) : Prop := f.root i = f.root j

theorem same_equivalence (f : Forest A) : Equivalence f.Same := ⟨fun _ => rfl, fun h => h.symm, fun h h' => h.trans h'⟩

theorem join_root (f : Forest A) (a b i : A) : (f.join a b).root i = if f.root i = f.root b then f.root a else f.root i := by
  unfold join
  dsimp only
  split
  · rename_i h
    rw [link_root]
    · simp
    · simp [← root_eq_iff]
  · rename_i h
    simp only [ne_eq, not_not, find_snd, find_root] at h
    simp [h]

omit [DecidableEq A] in
/-- A relation within the classes of another makes no classes larger. -/
theorem eqvGen_le {r s : A → A → Prop} (h : ∀ i j, r i j → Relation.EqvGen s i j) {i j : A}
    (hij : Relation.EqvGen r i j) : Relation.EqvGen s i j := by
  induction hij with
  | rel i j hij => exact h i j hij
  | refl i => exact .refl i
  | symm i j _ ih => exact ih.symm _ _
  | trans i j k _ _ ih ih' => exact ih.trans _ _ _ ih'

theorem same_join {f : Forest A} {a b i j : A} :
    (f.join a b).Same i j ↔ Relation.EqvGen (fun i j => f.Same i j ∨ (i = a ∧ j = b)) i j := by
  constructor
  · have hup : ∀ i, Relation.EqvGen (fun i j => f.Same i j ∨ (i = a ∧ j = b)) i ((f.join a b).root i) := by
      intro i
      rw [join_root]
      split
      · rename_i h
        have hib : Relation.EqvGen (fun i j => f.Same i j ∨ (i = a ∧ j = b)) i b := .rel _ _ (.inl h)
        have hab : Relation.EqvGen (fun i j => f.Same i j ∨ (i = a ∧ j = b)) a b := .rel _ _ (.inr ⟨rfl, rfl⟩)
        have har : Relation.EqvGen (fun i j => f.Same i j ∨ (i = a ∧ j = b)) a (f.root a) :=
          .rel _ _ (.inl (root_root f a).symm)
        exact (hib.trans _ _ _ (hab.symm _ _)).trans _ _ _ har
      · exact .rel _ _ (.inl (root_root f i).symm)
    intro h
    have hi := hup i
    rw [h] at hi
    exact hi.trans _ _ _ ((hup j).symm _ _)
  · intro h
    refine (same_equivalence _).eqvGen_iff.mp (eqvGen_le (fun i j h => .rel _ _ ?_) h)
    obtain h | ⟨rfl, rfl⟩ := h
    · rw [Same, join_root, join_root, h]
    · rw [Same, join_root, join_root, if_pos rfl]
      split <;> rfl

/-- After some joins, the trees are the classes of the pairs joined. -/
theorem same_joins (f : Forest A) (pairs : List (A × A)) (i j : A) :
    (pairs.foldl (fun f p => f.join p.1 p.2) f).Same i j ↔
      Relation.EqvGen (fun i j => f.Same i j ∨ (i, j) ∈ pairs) i j := by
  induction pairs generalizing f with
  | nil =>
    refine ⟨fun h => .rel _ _ (.inl h), fun h => ?_⟩
    refine f.same_equivalence.eqvGen_iff.mp (eqvGen_le (fun i j h => .rel _ _ ?_) h)
    exact h.resolve_right List.not_mem_nil
  | cons p pairs ih =>
    obtain ⟨a, b⟩ := p
    rw [List.foldl_cons, ih]
    constructor
    · refine eqvGen_le fun i j h => ?_
      obtain h | h := h
      · refine eqvGen_le (fun i j h => ?_) (same_join.mp h)
        obtain h | ⟨rfl, rfl⟩ := h
        · exact .rel _ _ (.inl h)
        · exact .rel _ _ (.inr List.mem_cons_self)
      · exact .rel _ _ (.inr (List.mem_cons_of_mem _ h))
    · refine eqvGen_le fun i j h => ?_
      obtain h | h := h
      · exact .rel _ _ (.inl (same_join.mpr (.rel _ _ (.inl h))))
      · obtain h | h := List.mem_cons.mp h
        · cases h
          exact .rel _ _ (.inl (same_join.mpr (.rel _ _ (.inr ⟨rfl, rfl⟩))))
        · exact .rel _ _ (.inr h)

/-- Places joined from single ones. -/
theorem same_joins_single (pairs : List (A × A)) (i j : A) :
    (pairs.foldl (fun f p => f.join p.1 p.2) single).Same i j ↔ Relation.EqvGen (fun i j => (i, j) ∈ pairs) i j := by
  have hroot : ∀ i : A, (single : Forest A).root i = i := fun i => root_of_parent rfl
  rw [same_joins]
  constructor
  · refine eqvGen_le fun i j h => ?_
    obtain h | h := h
    · rw [Same, hroot, hroot] at h
      rw [h]
      exact .refl j
    · exact .rel _ _ h
  · exact eqvGen_le fun i j h => .rel _ _ (.inr h)

end Forest

end Haruspex.Library
