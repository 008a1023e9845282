import Mathlib.Data.Nat.Notation

/-! Writes that are still to be made. Each writer makes its own in order; the writers take turns as
they like. A write that commutes with all those due before it can be made ahead of them: what the
store is in the end stays the same. -/
namespace Haruspex.WriteBehind
set_option autoImplicit false

variable {S W : Type} (put : W → S → S)

/-- The store after these writes, in their order. -/
def drain (writes : List W) (s : S) : S := writes.foldl (fun s w => put w s) s

def Commutes (w w' : W) : Prop := ∀ s, put w (put w' s) = put w' (put w s)

variable {put}

theorem drain_append (before after : List W) (s : S) :
    drain put (before ++ after) s = drain put after (drain put before s) :=
  List.foldl_append

theorem drain_put {w : W} {before : List W} (h : ∀ w' ∈ before, Commutes put w w') (s : S) :
    drain put before (put w s) = put w (drain put before s) := by
  induction before generalizing s with
  | nil => rfl
  | cons w' before ih =>
    have hrest := ih (fun w'' hw => h w'' (List.mem_cons_of_mem w' hw))
    show drain put before (put w' (put w s)) = put w (drain put before (put w' s))
    rw [← h w' List.mem_cons_self s]
    exact hrest (put w' s)

/-- The writes still to be made, each writer's in its own list, the writers in the order they came. -/
def due (writers : List (List W)) : List W := writers.flatten

/-- The writers after the one at `k` has made its next write. -/
theorem due_set {writers : List (List W)} {k : ℕ} {w : W} {rest : List W}
    (h : writers[k]? = some (w :: rest)) :
    due writers = due (writers.take k) ++ w :: (rest ++ due (writers.drop (k + 1))) ∧
      due (writers.set k rest) = due (writers.take k) ++ (rest ++ due (writers.drop (k + 1))) := by
  obtain ⟨hlt, hget⟩ := List.getElem?_eq_some_iff.mp h
  constructor
  · have hsplit : writers = writers.take k ++ (w :: rest) :: writers.drop (k + 1) := by
      rw [← hget, List.getElem_cons_drop, List.take_append_drop]
    have hflat := congrArg List.flatten hsplit
    rw [List.flatten_append, List.flatten_cons, List.cons_append] at hflat
    exact hflat
  · rw [due, List.set_eq_take_append_cons_drop, if_pos hlt, List.flatten_append, List.flatten_cons]
    rfl

/-- A write made ahead of the writers before it, with none of which it conflicts, changes nothing about
the store all writes lead to. -/
theorem drain_set {writers : List (List W)} {k : ℕ} {w : W} {rest : List W}
    (h : writers[k]? = some (w :: rest))
    (hcommute : ∀ w' ∈ due (writers.take k), Commutes put w w') (s : S) :
    drain put (due (writers.set k rest)) (put w s) = drain put (due writers) s := by
  obtain ⟨hbefore, hafter⟩ := due_set h
  rw [hbefore, hafter, drain_append, drain_put hcommute]
  exact (drain_append _ (w :: _) s).symm

end Haruspex.WriteBehind
