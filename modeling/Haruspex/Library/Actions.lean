import Mathlib.Data.Nat.Notation

/-! Actions on a state that may fail, where a failure keeps what was done before it, and rules for what
an action ensures. -/
namespace Haruspex.Actions
set_option autoImplicit false

def Action (W E α : Type) := W → Except E α × W

variable {W E α β : Type}

instance : Monad (Action W E) where
  pure a := fun w => (.ok a, w)
  bind act next := fun w =>
    match act w with
    | (.ok a, w') => next a w'
    | (.error e, w') => (.error e, w')

def fail (e : E) : Action W E α := fun w => (.error e, w)

def look : Action W E W := fun w => (.ok w, w)

def update (f : W → W) : Action W E Unit := fun w => (.ok (), f w)

/-- The action, or what is done about its failure. -/
def attempt (act : Action W E α) (handle : E → Action W E α) : Action W E α := fun w =>
  match act w with
  | (.ok a, w') => (.ok a, w')
  | (.error e, w') => handle e w'

/-- An action for each of a list, one after another. -/
def forEach {T : Type} (each : T → Action W E Unit) : List T → Action W E Unit
  | [] => pure ()
  | t :: items => do
    each t
    forEach each items

/-! ## What an action ensures -/

def Ensures (P : W → Prop) (act : Action W E α) (Q : Except E α → W → Prop) : Prop :=
  ∀ w, P w → Q (act w).1 (act w).2

namespace Ensures

variable {P P' : W → Prop} {Q Q' R : Except E α → W → Prop} {S : Except E β → W → Prop}
  {act : Action W E α} {next : α → Action W E β}

theorem mono (h : Ensures P act Q) (hP : ∀ w, P' w → P w) (hQ : ∀ r w, Q r w → Q' r w) :
    Ensures P' act Q' :=
  fun w hw => hQ _ _ (h w (hP w hw))

theorem ofPure {a : α} (h : ∀ w, P w → Q (.ok a) w) : Ensures P (pure a : Action W E α) Q := h

theorem ofFail {e : E} (h : ∀ w, P w → Q (.error e) w) : Ensures P (fail e) Q := h

theorem bind (hact : Ensures P act R) (hnext : ∀ a, Ensures (R (.ok a)) (next a) S)
    (hfail : ∀ e w, R (.error e) w → S (.error e) w) : Ensures P (act >>= next) S := by
  intro w hw
  have hmid := hact w hw
  have hbind : (act >>= next) w =
      match act w with
      | (.ok a, w') => next a w'
      | (.error e, w') => (.error e, w') := rfl
  rw [hbind]
  generalize act w = result at hmid ⊢
  obtain ⟨r, w'⟩ := result
  cases r with
  | ok a => exact hnext a w' hmid
  | error e => exact hfail e w' hmid

theorem ofAttempt {handle : E → Action W E α} (hact : Ensures P act R)
    (hok : ∀ a w, R (.ok a) w → Q (.ok a) w) (hhandle : ∀ e, Ensures (R (.error e)) (handle e) Q) :
    Ensures P (attempt act handle) Q := by
  intro w hw
  have hmid := hact w hw
  unfold attempt
  generalize act w = result at hmid ⊢
  obtain ⟨r, w'⟩ := result
  cases r with
  | ok a => exact hok a w' hmid
  | error e => exact hhandle e w' hmid

theorem ofUpdate {f : W → W} {T : Except E Unit → W → Prop} (h : ∀ w, P w → T (.ok ()) (f w)) :
    Ensures P (update f) T := h

theorem ofIte {c : Prop} [Decidable c] {act' : Action W E α} (h : c → Ensures P act Q)
    (h' : ¬ c → Ensures P act' Q) : Ensures P (if c then act else act') Q := by
  split
  · exact h ‹_›
  · exact h' ‹_›

/-- Looking at the state changes nothing. -/
theorem ofLookThen {next : W → Action W E β} (h : ∀ v, Ensures (fun w => w = v ∧ P w) (next v) S) :
    Ensures P (look >>= next) S :=
  fun w hw => h w w ⟨rfl, hw⟩

end Ensures

/-! ## What an action keeps -/

/-- Whether or not the action fails. -/
def Keeps (I : W → Prop) (act : Action W E α) : Prop := Ensures I act (fun _ w => I w)

namespace Keeps

variable {I : W → Prop} {act : Action W E α} {next : α → Action W E β}

theorem ofPure {a : α} : Keeps I (pure a : Action W E α) := fun _ hw => hw

theorem ofFail {e : E} : Keeps I (fail e : Action W E α) := fun _ hw => hw

theorem ofLook : Keeps I (look : Action W E W) := fun _ hw => hw

theorem ofUpdate {f : W → W} (h : ∀ w, I w → I (f w)) : Keeps I (update f : Action W E Unit) := h

theorem bind (hact : Keeps I act) (hnext : ∀ a, Keeps I (next a)) : Keeps I (act >>= next) :=
  Ensures.bind hact hnext (fun _ _ hw => hw)

theorem ofAttempt {handle : E → Action W E α} (hact : Keeps I act) (hhandle : ∀ e, Keeps I (handle e)) :
    Keeps I (attempt act handle) :=
  Ensures.ofAttempt hact (fun _ _ hw => hw) hhandle

theorem ofIte {c : Prop} [Decidable c] {act' : Action W E α} (h : c → Keeps I act)
    (h' : ¬ c → Keeps I act') : Keeps I (if c then act else act') := Ensures.ofIte h h'

theorem ofOption {T : Type} {rest : Option T → Action W E α} (hsome : ∀ t, Keeps I (rest (some t)))
    (hnone : Keeps I (rest none)) (found : Option T) : Keeps I (rest found) := by
  cases found with
  | some t => exact hsome t
  | none => exact hnone

theorem ofForEach {T : Type} {each : T → Action W E Unit} (h : ∀ t, Keeps I (each t)) :
    ∀ items, Keeps I (forEach each items)
  | [] => ofPure
  | t :: items => bind (h t) (fun _ => ofForEach h items)

end Keeps

/-! ## What an action that does not fail brings about -/

def Returns (P : W → Prop) (act : Action W E α) (Q : W → Prop) : Prop :=
  Ensures P act (fun r w => (∃ a, r = .ok a) ∧ Q w)

namespace Returns

variable {P Q : W → Prop} {S : Except E β → W → Prop} {act : Action W E α} {next : α → Action W E β}

theorem ofPure {a : α} (h : ∀ w, P w → Q w) : Returns P (pure a : Action W E α) Q :=
  fun w hw => ⟨⟨a, rfl⟩, h w hw⟩

theorem ofUpdate {f : W → W} (h : ∀ w, P w → Q (f w)) : Returns P (update f : Action W E Unit) Q :=
  fun w hw => ⟨⟨(), rfl⟩, h w hw⟩

/-- What comes after it need not return. -/
theorem thenEnsures (hact : Returns P act Q) (hnext : ∀ a, Ensures Q (next a) S) :
    Ensures P (act >>= next) S := by
  refine Ensures.bind hact (fun a => (hnext a).mono (fun _ h => h.2) fun _ _ h => h) ?_
  intro e w h
  obtain ⟨⟨a, hne⟩, -⟩ := h
  exact nomatch hne

theorem bind {R : W → Prop} (hact : Returns P act Q) (hnext : ∀ a, Returns Q (next a) R) :
    Returns P (act >>= next) R :=
  thenEnsures hact hnext

theorem keeps {I : W → Prop} (h : Returns I act I) : Keeps I act :=
  h.mono (fun _ hw => hw) (fun _ _ hw => hw.2)

/-- Each of a list takes what holds of the rest with it to what holds of the rest without it. -/
theorem ofForEach {T : Type} {each : T → Action W E Unit} {I : List T → W → Prop}
    (h : ∀ t items, Returns (I (t :: items)) (each t) (I items)) :
    ∀ items, Returns (I items) (forEach each items) (I [])
  | [] => ofPure fun _ hw => hw
  | t :: items => bind (h t items) fun _ => ofForEach h items

end Returns

/-! ## A record beside the state

The record is only written: an action without it does the same. -/

variable {R : Type}

/-- An action that leaves the record alone. -/
def beside (act : Action W E α) : Action (W × R) E α := fun s => ((act s.1).1, ((act s.1).2, s.2))

def record (f : R → R) : Action (W × R) E Unit := update (fun s => (s.1, f s.2))

/-! ## Without the record -/

def Erases (kept : Action (W × R) E α) (act : Action W E α) : Prop := ∀ s, ((kept s).1, (kept s).2.1) = act s.1

namespace Erases

variable {kept kept' : Action (W × R) E α} {act act' : Action W E α} {keptNext : α → Action (W × R) E β}
  {next : α → Action W E β}

theorem ofBeside : Erases (beside act : Action (W × R) E α) act := fun _ => rfl

theorem ofPure {a : α} : Erases (pure a : Action (W × R) E α) (pure a) := fun _ => rfl

theorem bind (h : Erases kept act) (hnext : ∀ a, Erases (keptNext a) (next a)) :
    Erases (kept >>= keptNext) (act >>= next) := by
  intro s
  dsimp only [Bind.bind]
  rw [← h s]
  obtain ⟨r, s'⟩ := kept s
  cases r with
  | ok a => exact hnext a s'
  | error e => rfl

/-- What does nothing after an action but write. -/
theorem thenRecord {f : α → R → R} (h : Erases kept act) :
    Erases (kept >>= fun a => record (f a) >>= fun _ => pure a) act := by
  intro s
  dsimp only [Bind.bind]
  rw [← h s]
  obtain ⟨r, s'⟩ := kept s
  cases r with
  | ok a => rfl
  | error e => rfl

theorem recording (f : R → R) (h : Erases kept act) : Erases (record f >>= fun _ => kept) act :=
  fun s => h (s.1, f s.2)

theorem ofIte {c : Prop} [Decidable c] (h : Erases kept act) (h' : Erases kept' act') :
    Erases (if c then kept else kept') (if c then act else act') := by
  split
  · exact h
  · exact h'

end Erases

/-! ## What an action ensures of the record -/

namespace Ensures

variable {P : W × R → Prop} {Q : Except E α → W × R → Prop} {act : Action W E α}

theorem ofBeside (h : ∀ r, Ensures (fun w => P (w, r)) act (fun result w => Q result (w, r))) :
    Ensures P (beside act) Q :=
  fun s hs => h s.2 s.1 hs

theorem recording {f : R → R} {kept : Action (W × R) E α} {P' : W × R → Prop}
    (hf : ∀ w r, P (w, r) → P' (w, f r)) (h : Ensures P' kept Q) : Ensures P (record f >>= fun _ => kept) Q :=
  fun s hs => h (s.1, f s.2) (hf s.1 s.2 hs)

end Ensures

end Haruspex.Actions
