import Mathlib.Data.Nat.Notation

/-! Replicas that follow a source by its events. What the source shows goes from one value to the next
as events say; a replica handles the same events, later. -/
namespace Haruspex.Replicas
set_option autoImplicit false

variable {V E C : Type}

/-! ## From value to value -/

/-- These events lead from one value to another. `follow` has no value for an event that cannot come
there. -/
def Follows (follow : V → E → Option V) (v : V) (events : List E) (v' : V) : Prop :=
  events.foldlM follow v = some v'

variable {follow : V → E → Option V} {v v' v'' : V} {events more : List E} {e : E}

theorem follows_nil : Follows follow v [] v' ↔ v = v' := by
  simp [Follows]

theorem follows_cons :
    Follows follow v (e :: events) v'' ↔ ∃ v', follow v e = some v' ∧ Follows follow v' events v'' := by
  simp [Follows, Option.bind_eq_some_iff]

theorem follows_one : Follows follow v [e] v' ↔ follow v e = some v' := by
  simp [follows_cons, follows_nil]

theorem follows_append :
    Follows follow v (events ++ more) v'' ↔
      ∃ v', Follows follow v events v' ∧ Follows follow v' more v'' := by
  simp [Follows, Option.bind_eq_some_iff]

/-! ## A replica -/

variable {handle : C → E → C} {Shows : C → V → Prop} {c : C} {rest : List E}

/-- After this event a replica shows this value, whatever it showed before. -/
def Whole (handle : C → E → C) (Shows : C → V → Prop) (e : E) (v : V) : Prop :=
  ∀ c, Shows (handle c e) v

/-- A replica that shows the source's value once it has handled the rest of the events: it shows now
what they start from, or one of them is whole. -/
inductive Recovers (follow : V → E → Option V) (handle : C → E → C) (Shows : C → V → Prop) (c : C)
    (rest : List E) (v' : V) : Prop
  | shows (v : V) (now : Shows c v) (follows : Follows follow v rest v')
  | ahead (before : List E) (e : E) (after : List E) (v : V) (split : rest = before ++ e :: after)
      (whole : Whole handle Shows e v) (follows : Follows follow v after v')

theorem Recovers.done (h : Recovers follow handle Shows c [] v) : Shows c v := by
  cases h with
  | shows v' now follows =>
    rw [follows_nil] at follows
    rw [← follows]
    exact now
  | ahead before e after v' split => simp at split

theorem Recovers.sends (h : Recovers follow handle Shows c rest v)
    (hmore : Follows follow v more v') : Recovers follow handle Shows c (rest ++ more) v' := by
  cases h with
  | shows w now follows => exact .shows w now (follows_append.mpr ⟨v, follows, hmore⟩)
  | ahead before e after w split whole follows =>
    refine .ahead before e (after ++ more) w ?_ whole (follows_append.mpr ⟨v, follows, hmore⟩)
    simp [split]

theorem Recovers.reads (h : Recovers follow handle Shows c (e :: rest) v')
    (hstep : ∀ v v', Shows c v → follow v e = some v' → Shows (handle c e) v') :
    Recovers follow handle Shows (handle c e) rest v' := by
  cases h with
  | shows v now follows =>
    obtain ⟨next, hnext, hrest⟩ := follows_cons.mp follows
    exact .shows next (hstep v next now hnext) hrest
  | ahead before e' after v split whole follows =>
    cases before with
    | nil =>
      obtain ⟨rfl, rfl⟩ := List.cons_eq_cons.mp split
      exact .shows v (whole c) follows
    | cons first before =>
      obtain ⟨rfl, rfl⟩ := List.cons_eq_cons.mp split
      exact .ahead before e' after v rfl whole follows

end Haruspex.Replicas
