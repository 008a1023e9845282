import Mathlib.Algebra.BigOperators.Group.Finset.Piecewise
import Mathlib.Algebra.Order.BigOperators.Group.Finset
import Mathlib.Logic.Function.Iterate

/-! A loop that cuts the first element of the highest rank until a goal is met. Which elements it
cuts, and how often, does not need the loop to say: every element comes down to one level, and
nothing below the level is touched. -/
namespace Haruspex.LargestFirst
set_option autoImplicit false

variable {α : Type} (rank : α → Option ℕ) (cut : α → α)

/-! ## The loop -/

/-- At most `fuel` cuts of the element that `pick` names. -/
def run (pick : List α → Option ℕ) (done : List α → Bool) : ℕ → List α → List α
  | 0, l => l
  | fuel + 1, l =>
    if done l then l
    else match pick l with
      | none => l
      | some i => run pick done fuel (l.modify i cut)

/-- `pick` names the first element of the highest rank; elements without a rank are passed over. -/
structure Picks (pick : List α → Option ℕ) : Prop where
  highest : ∀ (l : List α) (i : ℕ), pick l = some i → ∃ r, l[i]?.bind rank = some r ∧
    ∀ (j r' : ℕ), l[j]?.bind rank = some r' → r' < r ∨ r' = r ∧ i ≤ j
  nothing : ∀ l : List α, pick l = none → ∀ j : ℕ, l[j]?.bind rank = none

/-! ## Cut counts -/

/-- Every element cut as often as `n` says. -/
def cutBy (n : ℕ → ℕ) (l : List α) : List α := l.mapIdx (fun i a => cut^[n i] a)

def total (n : ℕ → ℕ) (l : List α) : ℕ := ∑ i ∈ Finset.range l.length, n i

def bump (n : ℕ → ℕ) (i : ℕ) : ℕ → ℕ := Function.update n i (n i + 1)

/-- The rank of an element after so many cuts. -/
def rankAt (l : List α) (i cuts : ℕ) : Option ℕ := l[i]?.bind (fun a => rank (cut^[cuts] a))

/-- Whether the element at `i` comes before the element at `p` when that one has rank `v`. -/
def Above (v p r i : ℕ) : Prop := v < r ∨ r = v ∧ i < p

/-- The element at `p` came down to `v`, and no element was cut that ranked below it then. -/
structure Level (l : List α) (n : ℕ → ℕ) (p v : ℕ) : Prop where
  reached : ∃ a < n p, rankAt rank cut l p a = some v
  least : ∀ a < n p, ∃ r, rankAt rank cut l p a = some r ∧ v ≤ r
  above : ∀ i, i ≠ p → ∀ a < n i, ∃ r, rankAt rank cut l i a = some r ∧ Above v p r i
  below : ∀ i, i ≠ p → ∀ r, rankAt rank cut l i (n i) = some r → ¬ Above v p r i

/-- Cut counts that bring every element down to one level. -/
def Fair (l : List α) (n : ℕ → ℕ) : Prop := (∀ i, n i = 0) ∨ ∃ p v, Level rank cut l n p v

variable {rank cut} {l : List α} {n : ℕ → ℕ} {i p v r : ℕ}

theorem bump_self (n : ℕ → ℕ) (i : ℕ) : bump n i i = n i + 1 := by
  simp [bump]

theorem bump_other (n : ℕ → ℕ) {i j : ℕ} (h : j ≠ i) : bump n i j = n j := by
  simp [bump, h]

theorem length_cutBy (n : ℕ → ℕ) (l : List α) : (cutBy cut n l).length = l.length := by
  simp [cutBy]

theorem getElem?_cutBy (n : ℕ → ℕ) (l : List α) (i : ℕ) :
    (cutBy cut n l)[i]? = l[i]?.map (fun a => cut^[n i] a) := by
  simp [cutBy]

theorem rank_cutBy (n : ℕ → ℕ) (l : List α) (i : ℕ) :
    (cutBy cut n l)[i]?.bind rank = rankAt rank cut l i (n i) := by
  rw [getElem?_cutBy, rankAt]
  cases l[i]? <;> rfl

theorem cutBy_zero (l : List α) : cutBy cut (fun _ => 0) l = l := by
  apply List.ext_getElem?
  intro i
  rw [getElem?_cutBy]
  exact Option.map_id'

theorem modify_cutBy (n : ℕ → ℕ) (l : List α) (i : ℕ) :
    (cutBy cut n l).modify i cut = cutBy cut (bump n i) l := by
  apply List.ext_getElem?
  intro j
  rw [List.getElem?_modify, getElem?_cutBy, getElem?_cutBy]
  by_cases h : i = j
  · subst h
    simp only [if_true, bump_self, Function.iterate_succ_apply', Option.map_eq_map, Option.map_map]
    rfl
  · simp only [if_neg h, bump_other n (Ne.symm h), Option.map_eq_map, Option.map_map]
    rfl

theorem lt_length_of_rankAt {a : ℕ} (h : rankAt rank cut l i a = some r) : i < l.length := by
  rw [rankAt, Option.bind_eq_some_iff] at h
  obtain ⟨x, hx, -⟩ := h
  exact (List.getElem?_eq_some_iff.mp hx).1

theorem total_bump (hi : i < l.length) : total (bump n i) l = total n l + 1 := by
  have hmem : i ∈ Finset.range l.length := Finset.mem_range.mpr hi
  rw [total, bump, Finset.sum_update_of_mem hmem, total, ← Finset.sum_erase_add _ _ hmem,
    Finset.sdiff_singleton_eq_erase]
  omega

/-! ## One cut -/

/-- What a pick says about the ranks. -/
structure Top (rank : α → Option ℕ) (cut : α → α) (l : List α) (n : ℕ → ℕ) (q r : ℕ) : Prop where
  here : rankAt rank cut l q (n q) = some r
  highest : ∀ j r', rankAt rank cut l j (n j) = some r' → r' < r ∨ r' = r ∧ q ≤ j

theorem Picks.top {pick : List α → Option ℕ} (h : Picks rank pick) {q : ℕ}
    (hq : pick (cutBy cut n l) = some q) : ∃ r, Top rank cut l n q r := by
  obtain ⟨r, hr, hhighest⟩ := h.highest _ _ hq
  rw [rank_cutBy] at hr
  refine ⟨r, hr, fun j r' hj => hhighest j r' ?_⟩
  rw [rank_cutBy]
  exact hj

theorem Top.level_of_fresh {q : ℕ} (h : Top rank cut l n q r) (hn : ∀ i, n i = 0) :
    Level rank cut l (bump n q) q r := by
  have hq : n q = 0 := hn q
  refine ⟨⟨0, ?_, ?_⟩, ?_, ?_, ?_⟩
  · rw [bump_self]
    omega
  · rw [← hq]
    exact h.here
  · intro a ha
    rw [bump_self, hq] at ha
    have ha : a = n q := by omega
    exact ⟨r, ha ▸ h.here, Nat.le_refl r⟩
  · intro i hi a ha
    rw [bump_other n hi, hn i] at ha
    omega
  · intro i hi r' hr' habove
    rw [bump_other n hi] at hr'
    have hle := h.highest i r' hr'
    rw [Above] at habove
    omega

/-- The element that set the level is cut again and does not come lower. -/
theorem Level.again (h : Level rank cut l n p v) (htop : Top rank cut l n p r) (hr : v ≤ r) :
    Level rank cut l (bump n p) p v := by
  obtain ⟨a, ha, hv⟩ := h.reached
  refine ⟨⟨a, ?_, hv⟩, ?_, ?_, ?_⟩
  · rw [bump_self]
    omega
  · intro a ha
    rw [bump_self] at ha
    by_cases hlast : a = n p
    · exact ⟨r, hlast ▸ htop.here, hr⟩
    · exact h.least a (by omega)
  · intro i hi
    rw [bump_other n hi]
    exact h.above i hi
  · intro i hi
    rw [bump_other n hi]
    exact h.below i hi

/-- The element that set the level is cut again and comes lower. -/
theorem Level.lower (h : Level rank cut l n p v) (htop : Top rank cut l n p r) (hr : r < v) :
    Level rank cut l (bump n p) p r := by
  refine ⟨⟨n p, ?_, htop.here⟩, ?_, ?_, ?_⟩
  · rw [bump_self]
    omega
  · intro a ha
    rw [bump_self] at ha
    by_cases hlast : a = n p
    · exact ⟨r, hlast ▸ htop.here, Nat.le_refl r⟩
    · obtain ⟨r', hr', hle⟩ := h.least a (by omega)
      exact ⟨r', hr', by omega⟩
  · intro i hi a ha
    rw [bump_other n hi] at ha
    obtain ⟨r', hr', habove⟩ := h.above i hi a ha
    refine ⟨r', hr', ?_⟩
    rw [Above] at habove ⊢
    omega
  · intro i hi r' hr' habove
    rw [bump_other n hi] at hr'
    have hle := htop.highest i r' hr'
    rw [Above] at habove
    omega

/-- Another element is cut and sets the level. -/
theorem Level.move (h : Level rank cut l n p v) {q : ℕ} (htop : Top rank cut l n q r)
    (hq : q ≠ p) : Level rank cut l (bump n q) q r := by
  have hbelow := h.below q hq r htop.here
  rw [Above] at hbelow
  refine ⟨⟨n q, ?_, htop.here⟩, ?_, ?_, ?_⟩
  · rw [bump_self]
    omega
  · intro a ha
    rw [bump_self] at ha
    by_cases hlast : a = n q
    · exact ⟨r, hlast ▸ htop.here, Nat.le_refl r⟩
    · obtain ⟨r', hr', habove⟩ := h.above q hq a (by omega)
      rw [Above] at habove
      exact ⟨r', hr', by omega⟩
  · intro i hi a ha
    rw [bump_other n hi] at ha
    by_cases hp : i = p
    · subst hp
      obtain ⟨r', hr', hle⟩ := h.least a ha
      refine ⟨r', hr', ?_⟩
      rw [Above]
      omega
    · obtain ⟨r', hr', habove⟩ := h.above i hp a ha
      refine ⟨r', hr', ?_⟩
      rw [Above] at habove ⊢
      omega
  · intro i hi r' hr' habove
    rw [bump_other n hi] at hr'
    have hle := htop.highest i r' hr'
    rw [Above] at habove
    omega

/-- A cut of the top element keeps the counts fair. -/
theorem Fair.cut_top (h : Fair rank cut l n) {q : ℕ} (htop : Top rank cut l n q r) :
    Fair rank cut l (bump n q) := by
  rcases h with hzero | ⟨p, v, hlevel⟩
  · exact Or.inr ⟨q, r, htop.level_of_fresh hzero⟩
  · by_cases hq : q = p
    · subst hq
      by_cases hr : v ≤ r
      · exact Or.inr ⟨q, v, hlevel.again htop hr⟩
      · exact Or.inr ⟨q, r, hlevel.lower htop (by omega)⟩
    · exact Or.inr ⟨q, r, hlevel.move htop hq⟩

/-! ## The whole loop -/

variable {pick : List α → Option ℕ} {done : List α → Bool}

theorem run_fair (hpick : Picks rank pick) (done : List α → Bool) (fuel : ℕ)
    (h : Fair rank cut l n) :
    ∃ n', Fair rank cut l n' ∧ total n' l ≤ total n l + fuel ∧
      run cut pick done fuel (cutBy cut n l) = cutBy cut n' l := by
  induction fuel generalizing n with
  | zero => exact ⟨n, h, Nat.le_refl _, rfl⟩
  | succ fuel ih =>
    rw [run]
    by_cases hdone : done (cutBy cut n l) = true
    · rw [if_pos hdone]
      exact ⟨n, h, Nat.le_add_right _ _, rfl⟩
    · rw [if_neg hdone]
      cases hq : pick (cutBy cut n l) with
      | none => exact ⟨n, h, Nat.le_add_right _ _, rfl⟩
      | some q =>
        obtain ⟨r, htop⟩ := hpick.top hq
        obtain ⟨n', hfair, htotal, hrun⟩ := ih (h.cut_top htop)
        rw [total_bump (lt_length_of_rankAt htop.here)] at htotal
        refine ⟨n', hfair, by omega, ?_⟩
        rw [← hrun, ← modify_cutBy]

/-- The counts the loop has made on the way to `n`: until the element that sets the level has come
down to it nothing else matters, after that everything else is finished. -/
structure Toward (rank : α → Option ℕ) (cut : α → α) (l : List α) (n : ℕ → ℕ) (p v : ℕ)
    (c : ℕ → ℕ) : Prop where
  le : ∀ i, c i ≤ n i
  finished : ∀ a < c p, rankAt rank cut l p a = some v → ∀ i, i ≠ p → c i = n i

/-- While the loop is on its way, the element it cuts next is one that `n` cuts as well. -/
theorem Toward.cut_top {c : ℕ → ℕ} (h : Toward rank cut l n p v c) (hlevel : Level rank cut l n p v)
    {q : ℕ} (htop : Top rank cut l c q r) (hleft : ∃ i, c i < n i) :
    Toward rank cut l n p v (bump c q) := by
  have hbump : ∀ i, i ≠ q → bump c q i = c i := fun i hi => bump_other c hi
  by_cases hothers : ∃ i, i ≠ p ∧ c i < n i
  · -- Another element has still to be cut, so the top one ranks above the level.
    obtain ⟨i, hi, hlt⟩ := hothers
    obtain ⟨r', hr', habove⟩ := hlevel.above i hi (c i) hlt
    have hhigh := htop.highest i r' hr'
    rw [Above] at habove
    by_cases hq : q = p
    · subst hq
      have hr : v < r := by omega
      have hunreached : ∀ a < c q, rankAt rank cut l q a ≠ some v := by
        intro a ha hv
        have := h.finished a ha hv i hi
        omega
      have hroom : c q < n q := by
        obtain ⟨a, ha, hv⟩ := hlevel.reached
        have hnot : ¬ a < c q := fun hlt => hunreached a hlt hv
        omega
      refine ⟨?_, ?_⟩
      · intro j
        by_cases hj : j = q
        · rw [hj, bump_self]
          exact hroom
        · rw [hbump j hj]
          exact h.le j
      · intro a ha hv
        rw [bump_self] at ha
        by_cases hlast : a = c q
        · rw [hlast, htop.here] at hv
          cases hv
          omega
        · exact absurd hv (hunreached a (by omega))
    · have hroom : c q < n q := by
        by_contra hno
        have heq : c q = n q := Nat.le_antisymm (h.le q) (by omega)
        have hbelow := hlevel.below q hq r (heq ▸ htop.here)
        rw [Above] at hbelow
        omega
      refine ⟨?_, ?_⟩
      · intro j
        by_cases hj : j = q
        · rw [hj, bump_self]
          exact hroom
        · rw [hbump j hj]
          exact h.le j
      · intro a ha hv
        rw [hbump p (Ne.symm hq)] at ha
        have := h.finished a ha hv i hi
        omega
  · -- Only the element that sets the level is left, and it is the top one.
    have hdone : ∀ i, i ≠ p → c i = n i := by
      intro i hi
      by_contra hne
      exact hothers ⟨i, hi, lt_of_le_of_ne (h.le i) hne⟩
    have hroom : c p < n p := by
      obtain ⟨i, hlt⟩ := hleft
      by_cases hi : i = p
      · rw [← hi]
        exact hlt
      · rw [hdone i hi] at hlt
        exact absurd hlt (lt_irrefl _)
    obtain ⟨r', hr', hle⟩ := hlevel.least (c p) hroom
    have hhigh := htop.highest p r' hr'
    have hq : q = p := by
      by_contra hne
      have hbelow := hlevel.below q hne r (hdone q hne ▸ htop.here)
      rw [Above] at hbelow
      omega
    subst hq
    refine ⟨?_, fun a _ _ i hi => (hbump i hi).trans (hdone i hi)⟩
    intro j
    by_cases hj : j = q
    · rw [hj, bump_self]
      exact hroom
    · rw [hbump j hj]
      exact h.le j

theorem exists_lt_of_ne {c : ℕ → ℕ} (hle : ∀ i, c i ≤ n i)
    (hne : cutBy cut c l ≠ cutBy cut n l) : ∃ i, c i < n i := by
  by_contra hno
  have heq : c = n := by
    funext i
    have hi : ¬ c i < n i := fun hlt => hno ⟨i, hlt⟩
    exact Nat.le_antisymm (hle i) (by omega)
  exact hne (by rw [heq])

theorem Level.head {c : ℕ → ℕ} (hlevel : Level rank cut l n p v) (hlt : c i < n i) :
    ∃ r, rankAt rank cut l i (c i) = some r := by
  by_cases hi : i = p
  · subst hi
    obtain ⟨r, hr, -⟩ := hlevel.least (c i) hlt
    exact ⟨r, hr⟩
  · obtain ⟨r, hr, -⟩ := hlevel.above i hi (c i) hlt
    exact ⟨r, hr⟩

theorem run_reaches (hpick : Picks rank pick) (hlevel : Level rank cut l n p v)
    (hgoal : done (cutBy cut n l) = true) (fuel : ℕ) {c : ℕ → ℕ}
    (h : Toward rank cut l n p v c) (hfuel : total n l ≤ total c l + fuel) :
    done (run cut pick done fuel (cutBy cut c l)) = true := by
  induction fuel generalizing c with
  | zero =>
    -- Nothing is left to cut: a smaller count anywhere would make the sum smaller.
    by_cases hsame : cutBy cut c l = cutBy cut n l
    · rw [run, hsame]
      exact hgoal
    · obtain ⟨i, hlt⟩ := exists_lt_of_ne h.le hsame
      obtain ⟨r, hr⟩ := hlevel.head hlt
      have hmem : i ∈ Finset.range l.length := Finset.mem_range.mpr (lt_length_of_rankAt hr)
      have hsum : total c l < total n l := Finset.sum_lt_sum (fun j _ => h.le j) ⟨i, hmem, hlt⟩
      omega
  | succ fuel ih =>
    rw [run]
    by_cases hdone : done (cutBy cut c l) = true
    · rw [if_pos hdone]
      exact hdone
    · rw [if_neg hdone]
      have hne : cutBy cut c l ≠ cutBy cut n l := fun e => hdone (e ▸ hgoal)
      obtain ⟨i, hlt⟩ := exists_lt_of_ne h.le hne
      obtain ⟨r, hr⟩ := hlevel.head hlt
      cases hq : pick (cutBy cut c l) with
      | none =>
        have hnone := hpick.nothing _ hq i
        rw [rank_cutBy, hr] at hnone
        cases hnone
      | some q =>
        obtain ⟨r, htop⟩ := hpick.top hq
        have hstep := ih (h.cut_top hlevel htop ⟨i, hlt⟩)
        rw [total_bump (lt_length_of_rankAt htop.here), ← modify_cutBy] at hstep
        exact hstep (by omega)

/-- The loop meets its goal exactly when bringing every element down to some level meets it, with
no more cuts than the loop has. -/
theorem run_done_iff (hpick : Picks rank pick) (cut : α → α) (done : List α → Bool) (fuel : ℕ)
    (l : List α) :
    done (run cut pick done fuel l) = true ↔
      ∃ n, Fair rank cut l n ∧ total n l ≤ fuel ∧ done (cutBy cut n l) = true := by
  have hzero : total (fun _ => 0) l = 0 := by simp [total]
  constructor
  · intro hgoal
    have hstart : Fair rank cut l (fun _ => 0) := Or.inl (fun _ => rfl)
    obtain ⟨n, hfair, htotal, hrun⟩ := run_fair hpick done fuel hstart
    rw [cutBy_zero] at hrun
    refine ⟨n, hfair, by omega, ?_⟩
    rw [← hrun]
    exact hgoal
  · intro ⟨n, hfair, htotal, hgoal⟩
    rcases hfair with hn | ⟨p, v, hlevel⟩
    · have hn : n = fun _ => 0 := funext hn
      rw [hn, cutBy_zero] at hgoal
      cases fuel with
      | zero => exact hgoal
      | succ fuel =>
        rw [run, if_pos hgoal]
        exact hgoal
    · have hstart : Toward rank cut l n p v (fun _ => 0) :=
        ⟨fun i => Nat.zero_le _, fun a ha => by omega⟩
      have hrun := run_reaches hpick hlevel hgoal fuel hstart (by omega)
      rw [cutBy_zero] at hrun
      exact hrun

end Haruspex.LargestFirst
