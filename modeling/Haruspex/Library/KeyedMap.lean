import Mathlib.Data.List.AList

/-! Maps whose values all have one type: keeping some entries, changing all values. -/
namespace Haruspex.KeyedMap
set_option autoImplicit false

variable {K V W : Type} [DecidableEq K]

abbrev Dict (K V : Type) := AList (fun _ : K => V)

/-- The entries that satisfy `p` (`retain`). -/
def keep (p : K → V → Bool) (m : Dict K V) : Dict K V where
  entries := m.entries.filter (fun e => p e.1 e.2)
  nodupKeys := m.nodupKeys.sublist List.filter_sublist

/-- Each value changed (`values_mut`). -/
def mapValues (f : V → W) (m : Dict K V) : Dict K W where
  entries := m.entries.map (Sigma.map id (fun _ => f))
  nodupKeys := m.nodupKeys.map₂ (fun _ => f)

theorem mem_entries {m : Dict K V} {k : K} {v : V} : ⟨k, v⟩ ∈ m.entries ↔ m.lookup k = some v :=
  AList.mem_lookup_iff.symm

@[simp] theorem lookup_mapValues (f : V → W) (m : Dict K V) (k : K) :
    (mapValues f m).lookup k = (m.lookup k).map f :=
  List.dlookup_map₂ k

@[simp] theorem lookup_keep (p : K → V → Bool) (m : Dict K V) (k : K) :
    (keep p m).lookup k = (m.lookup k).filter (p k) := by
  ext v
  have hkept : (keep p m).lookup k = some v ↔ m.lookup k = some v ∧ p k v = true := by
    rw [← mem_entries, ← mem_entries, keep, List.mem_filter]
  rw [hkept, Option.filter_eq_some_iff]

theorem lookup_insert_eq (m : Dict K V) (k k' : K) (v : V) :
    (m.insert k v).lookup k' = if k' = k then some v else m.lookup k' := by
  split
  · rename_i h
    rw [h, AList.lookup_insert]
  · rename_i h
    exact AList.lookup_insert_ne h

theorem lookup_erase_eq (m : Dict K V) (k k' : K) :
    (m.erase k).lookup k' = if k' = k then none else m.lookup k' := by
  split
  · rename_i h
    rw [h, AList.lookup_erase]
  · rename_i h
    exact AList.lookup_erase_ne h

end Haruspex.KeyedMap

/-! Maps of holdings that exclude each other: no two that count are in conflict. -/
namespace Haruspex.Exclusive
open KeyedMap
set_option autoImplicit false

variable {K V : Type} [DecidableEq K] {conflict : V → V → Prop} {counts counts' : V → Prop}
  {m m' : Dict K V}

/-- No two holders of things that count have ones in conflict. -/
def Exclusive (conflict : V → V → Prop) (counts : V → Prop) (m : Dict K V) : Prop :=
  ∀ i j v w, m.lookup i = some v → m.lookup j = some w → i ≠ j → counts v → counts w →
    ¬ conflict v w

theorem exclusive_empty : Exclusive conflict counts (∅ : Dict K V) := by
  intro i j v w hv
  cases hv

/-- Less may count. -/
theorem Exclusive.mono (h : Exclusive conflict counts m) (hless : ∀ v, counts' v → counts v) :
    Exclusive conflict counts' m :=
  fun i j v w hv hw hne hcv hcw => h i j v w hv hw hne (hless v hcv) (hless w hcw)

/-- Some holdings may end. -/
theorem Exclusive.shrink (h : Exclusive conflict counts m)
    (hsome : ∀ i v, m'.lookup i = some v → m.lookup i = some v) : Exclusive conflict counts m' :=
  fun i j v w hv hw hne hcv hcw => h i j v w (hsome i v hv) (hsome j w hw) hne hcv hcw

/-- A holder takes what is in conflict with nothing that others hold. -/
theorem Exclusive.insert (h : Exclusive conflict counts m) (hsymm : ∀ v w, conflict v w → conflict w v)
    {k : K} {v : V} (hfree : ∀ j w, m.lookup j = some w → j ≠ k → ¬ conflict w v) :
    Exclusive conflict counts (m.insert k v) := by
  intro i j x y hx hy hne hcx hcy hconflict
  rw [lookup_insert_eq] at hx hy
  by_cases hi : i = k
  · rw [if_pos hi, Option.some_inj] at hx
    rw [if_neg (fun hj => hne (hi.trans hj.symm))] at hy
    rw [← hx] at hconflict
    exact hfree j y hy (fun hj => hne (hi.trans hj.symm)) (hsymm v y hconflict)
  · rw [if_neg hi] at hx
    by_cases hj : j = k
    · rw [if_pos hj, Option.some_inj] at hy
      rw [← hy] at hconflict
      exact hfree i x hx hi hconflict
    · rw [if_neg hj] at hy
      exact h i j x y hx hy hne hcx hcy hconflict

end Haruspex.Exclusive
