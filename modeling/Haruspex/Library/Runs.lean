import Mathlib.Data.Nat.Notation

/-! Runs of a machine that takes one step after another. A condition on every step of a run speaks of
each step in the state it comes to. -/
namespace Haruspex.Runs
set_option autoImplicit false

variable {S A : Type} (apply : A → S → S)

def run (start : S) (steps : List A) : S := steps.foldl (fun s a => apply a s) start

/-- Something holds of each step, in the state it comes to. -/
def EveryStep (start : S) (steps : List A) (P : S → A → Prop) : Prop :=
  ∀ before a after, steps = before ++ a :: after → P (run apply start before) a

variable {apply} {start : S} {P : S → A → Prop}

theorem run_cons (start : S) (a : A) (steps : List A) :
    run apply start (a :: steps) = run apply (apply a start) steps := rfl

theorem run_append (start : S) (before after : List A) :
    run apply start (before ++ after) = run apply (run apply start before) after :=
  List.foldl_append

theorem everyStep_nil (start : S) (P : S → A → Prop) : EveryStep apply start [] P := by
  intro before a after h
  cases before <;> cases h

theorem everyStep_cons {a : A} {steps : List A} :
    EveryStep apply start (a :: steps) P ↔ P start a ∧ EveryStep apply (apply a start) steps P := by
  constructor
  · intro h
    refine ⟨h [] a steps rfl, fun before x after hsteps => ?_⟩
    exact h (a :: before) x after (by rw [hsteps, List.cons_append])
  · rintro ⟨ha, hsteps⟩ before x after h
    cases before with
    | nil =>
      obtain ⟨rfl, -⟩ := List.cons_eq_cons.mp h
      exact ha
    | cons first before =>
      rw [List.cons_append, List.cons_eq_cons] at h
      obtain ⟨rfl, hrest⟩ := h
      exact hsteps before x after hrest

theorem everyStep_append {before after : List A} :
    EveryStep apply start (before ++ after) P ↔
      EveryStep apply start before P ∧ EveryStep apply (run apply start before) after P := by
  induction before generalizing start with
  | nil => exact ⟨fun h => ⟨everyStep_nil start P, h⟩, fun h => h.2⟩
  | cons a before ih => rw [List.cons_append, everyStep_cons, everyStep_cons, ih, and_assoc, run_cons]

instance decidableEveryStep [∀ s a, Decidable (P s a)] (start : S) :
    ∀ steps : List A, Decidable (EveryStep apply start steps P)
  | [] => isTrue (everyStep_nil start P)
  | a :: steps =>
    have := decidableEveryStep (apply a start) steps
    decidable_of_iff (P start a ∧ EveryStep apply (apply a start) steps P) everyStep_cons.symm

theorem EveryStep.and {Q : S → A → Prop} {steps : List A} (hP : EveryStep apply start steps P)
    (hQ : EveryStep apply start steps Q) :
    EveryStep apply start steps (fun s a => P s a ∧ Q s a) :=
  fun before a after hsteps => ⟨hP before a after hsteps, hQ before a after hsteps⟩

/-- What each allowed step keeps, a run of allowed steps keeps. -/
theorem run_keeps (Inv : S → Prop) (hstep : ∀ s a, Inv s → P s a → Inv (apply a s)) {steps : List A}
    (hstart : Inv start) (h : EveryStep apply start steps P) : Inv (run apply start steps) := by
  induction steps generalizing start with
  | nil => exact hstart
  | cons a steps ih =>
    obtain ⟨ha, hsteps⟩ := everyStep_cons.mp h
    exact ih (hstep start a hstart ha) hsteps

/-- What each allowed step keeps holds in every state that a step of the run comes to. -/
theorem EveryStep.keeps (Inv : S → Prop) (hstep : ∀ s a, Inv s → P s a → Inv (apply a s))
    {steps : List A} (hstart : Inv start) (h : EveryStep apply start steps P) :
    EveryStep apply start steps (fun s _ => Inv s) := by
  intro before a after hsteps
  rw [hsteps] at h
  exact run_keeps Inv hstep hstart (everyStep_append.mp h).1

/-- Two conditions on steps that agree where an invariant holds, which steps that meet the second
keep, agree on whole runs. -/
theorem everyStep_iff (Inv : S → Prop) {Q R : S → A → Prop}
    (hiff : ∀ s a, Inv s → P s a → (Q s a ↔ R s a))
    (hstep : ∀ s a, Inv s → P s a → R s a → Inv (apply a s)) {steps : List A} (hstart : Inv start)
    (h : EveryStep apply start steps P) :
    EveryStep apply start steps Q ↔ EveryStep apply start steps R := by
  induction steps generalizing start with
  | nil => exact ⟨fun _ => everyStep_nil start R, fun _ => everyStep_nil start Q⟩
  | cons a steps ih =>
    obtain ⟨ha, hsteps⟩ := everyStep_cons.mp h
    rw [everyStep_cons, everyStep_cons, hiff start a hstart ha]
    constructor
    · rintro ⟨hR, hrest⟩
      exact ⟨hR, (ih (hstep start a hstart ha hR) hsteps).mp hrest⟩
    · rintro ⟨hR, hrest⟩
      exact ⟨hR, (ih (hstep start a hstart ha hR) hsteps).mpr hrest⟩

/-! ## Counting steps -/

/-- How many steps of a run are such steps. -/
def tally (apply : A → S → S) (p : S → A → Bool) : S → List A → ℕ
  | _, [] => 0
  | s, a :: steps => (p s a).toNat + tally apply p (apply a s) steps

/-- What only `give` steps bring about, and each `take` step finds and ends, is taken at most as often
as it was given. -/
theorem tally_take_le (Inv : S → Prop) (there : S → Bool) {give take : S → A → Bool}
    (hstep : ∀ s a, Inv s → P s a → Inv (apply a s))
    (htake : ∀ s a, Inv s → P s a → take s a = true → there s = true ∧ there (apply a s) = false)
    (hgive : ∀ s a, Inv s → P s a → there (apply a s) = true → there s = true ∨ give s a = true)
    {steps : List A} (hstart : Inv start) (h : EveryStep apply start steps P) :
    tally apply take start steps ≤ tally apply give start steps + (there start).toNat := by
  induction steps generalizing start with
  | nil => exact Nat.zero_le _
  | cons a steps ih =>
    obtain ⟨ha, hsteps⟩ := everyStep_cons.mp h
    have hrest := ih (hstep start a hstart ha) hsteps
    have hfound := htake start a hstart ha
    have hbrought := hgive start a hstart ha
    unfold tally
    cases htaken : take start a with
    | true =>
      obtain ⟨hthere, hended⟩ := hfound htaken
      rw [hended, Bool.toNat_false] at hrest
      rw [hthere, Bool.toNat_true]
      omega
    | false =>
      cases hthere : there (apply a start) with
      | false =>
        rw [hthere, Bool.toNat_false] at hrest
        rw [Bool.toNat_false]
        omega
      | true =>
        rw [hthere, Bool.toNat_true] at hrest
        rw [Bool.toNat_false]
        rcases hbrought hthere with h | h
        · rw [h, Bool.toNat_true]
          omega
        · rw [h, Bool.toNat_true]
          omega

end Haruspex.Runs
