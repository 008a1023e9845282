import Haruspex.Shell.Capture
import Mathlib.Data.List.Basic

/-! Rendering with the cursor in machine words: where `render_terminal` would index a row that is not there, or
overflow, it fails here. -/
namespace Haruspex.Shell
open Rust
set_option autoImplicit false

inductive Fault where
  | index
  | overflow
  deriving DecidableEq

def add64 (a b : ℕ) : Except Fault ℕ := if a + b < 2 ^ 64 then .ok (a + b) else .error .overflow

def mul64 (a b : ℕ) : Except Fault ℕ := if a * b < 2 ^ 64 then .ok (a * b) else .error .overflow

namespace Screen

/-- `lines[row]` -/
def checkRow (s : Screen) : Except Fault Unit := if s.row < s.lines.length then .ok () else .error .index

/-- The resize and the move of the cursor both compute `col + 1`. -/
def put64 (s : Screen) (c : Char) : Except Fault Screen := do
  s.checkRow
  let col ← add64 s.col 1
  return { s with lines := s.lines.modify s.row (fun line => putAt line s.col c), col := col }

def newline64 (s : Screen) : Except Fault Screen := do
  let row ← add64 s.row 1
  return { lines := if row = s.lines.length then s.lines ++ [[]] else s.lines, row := row, col := 0 }

def tab64 (s : Screen) : Except Fault Screen := do
  let stop ← add64 (s.col / 8) 1
  let col ← mul64 stop 8
  return { s with col := col }

def write64 (s : Screen) (c : Char) : Except Fault Screen :=
  if c = '\r' then .ok { s with col := 0 }
  else if c = '\n' then s.newline64
  else if c = '\x08' then .ok { s with col := s.col - 1 }
  else if c = '\t' then s.tab64
  else if isControl c then .ok s
  else s.put64 c

end Screen

def eraseLine64 (n : ℕ) (s : Screen) : Except Fault Screen := do
  s.checkRow
  if n = 0 then return { s with lines := s.lines.modify s.row (fun line => line.take s.col) }
  else if n = 1 then
    let stop ← add64 s.col 1
    return { s with lines := s.lines.modify s.row (fun line => blankFirst line stop) }
  else if n = 2 then return { s with lines := s.lines.modify s.row (fun _ => []) }
  else return s

def eraseDown64 (s : Screen) : Except Fault Screen := do
  s.checkRow
  let stop ← add64 s.row 1
  return { s with lines := (s.lines.modify s.row (fun line => line.take s.col)).take stop }

def applyCsi64 (params : List Char) (finalByte : Char) (s : Screen) : Except Fault Screen :=
  let n := firstParam params
  let step := max n 1
  if finalByte = 'C' then do
    let col ← add64 s.col step
    return { s with col := col }
  else if finalByte = 'D' then .ok { s with col := s.col - step }
  else if finalByte = 'G' ∨ finalByte.toNat = 0x60 then .ok { s with col := step - 1 }
  else if finalByte = 'A' then .ok { s with row := s.row - step }
  else if finalByte = 'B' then do
    let row ← add64 s.row step
    return { s with row := row, lines := s.lines ++ List.replicate (row + 1 - s.lines.length) [] }
  else if finalByte = 'K' then eraseLine64 n s
  else if finalByte = 'J' ∧ n = 0 then eraseDown64 s
  else .ok s

def renderChar64 (state : Escape × Screen) (c : Char) : Except Fault (Escape × Screen) :=
  match state with
  | (.none, s) => if c = '\x1B' then .ok (.started, s) else (s.write64 c).map (Prod.mk .none)
  | (.csi params, s) =>
    if endsCsi c then (applyCsi64 params c s).map (Prod.mk .none) else .ok (.csi (params ++ [c]), s)
  | state => .ok (renderChar c state)

def renderTerminal64 (text : String) : Except Fault String := do
  let (_, screen) ← text.toList.foldlM renderChar64 (Escape.none, Screen.blank)
  return screen.text

/-! ## Where the cursor goes, whatever is on the lines -/

structure Cursor where
  row : ℕ
  col : ℕ

namespace Cursor

def write (k : Cursor) (c : Char) : Cursor :=
  if c = '\r' then ⟨k.row, 0⟩
  else if c = '\n' then ⟨k.row + 1, 0⟩
  else if c = '\x08' then ⟨k.row, k.col - 1⟩
  else if c = '\t' then ⟨k.row, (k.col / 8 + 1) * 8⟩
  else if isControl c then k
  else ⟨k.row, k.col + 1⟩

def csi (params : List Char) (finalByte : Char) (k : Cursor) : Cursor :=
  let step := max (firstParam params) 1
  if finalByte = 'C' then ⟨k.row, k.col + step⟩
  else if finalByte = 'D' then ⟨k.row, k.col - step⟩
  else if finalByte = 'G' ∨ finalByte.toNat = 0x60 then ⟨k.row, step - 1⟩
  else if finalByte = 'A' then ⟨k.row - step, k.col⟩
  else if finalByte = 'B' then ⟨k.row + step, k.col⟩
  else k

/-- What a character does to the cursor stays in 64 bits. -/
def WriteFits (k : Cursor) (c : Char) : Prop :=
  if c = '\n' then k.row + 1 < 2 ^ 64
  else if c = '\t' then (k.col / 8 + 1) * 8 < 2 ^ 64
  else isControl c = false → k.col + 1 < 2 ^ 64

/-- What a CSI sequence does to the cursor stays in 64 bits; erasing up to the cursor, and below it, looks one
cell and one row further. -/
def CsiFits (params : List Char) (finalByte : Char) (k : Cursor) : Prop :=
  (finalByte = 'C' → k.col + max (firstParam params) 1 < 2 ^ 64) ∧
    (finalByte = 'B' → k.row + max (firstParam params) 1 < 2 ^ 64) ∧
    (finalByte = 'K' ∧ firstParam params = 1 → k.col + 1 < 2 ^ 64) ∧
    (finalByte = 'J' ∧ firstParam params = 0 → k.row + 1 < 2 ^ 64)

end Cursor

def walkChar (c : Char) (place : Escape × Cursor) : Escape × Cursor :=
  match place with
  | (.none, k) => if c = '\x1B' then (.started, k) else (.none, k.write c)
  | (.started, k) => if c = '[' then (.csi [], k) else if c = ']' then (.osc, k) else (.none, k)
  | (.csi params, k) => if endsCsi c then (.none, k.csi params c) else (.csi (params ++ [c]), k)
  | (.osc, k) => if c = '\x07' then (.none, k) else if c = '\x1B' then (.oscEsc, k) else (.osc, k)
  | (.oscEsc, k) => (.none, k)

def StepFits (place : Escape × Cursor) (c : Char) : Prop :=
  match place with
  | (.none, k) => c ≠ '\x1B' → k.WriteFits c
  | (.csi params, k) => endsCsi c = true → k.CsiFits params c
  | _ => True

def walkFrom (place : Escape × Cursor) (chars : List Char) : Escape × Cursor :=
  chars.foldl (fun place c => walkChar c place) place

/-- Each move of a cursor without a bound over the text stays in 64 bits. -/
def Fits (text : String) : Prop :=
  ∀ front c back, text.toList = front ++ c :: back → StepFits (walkFrom (.none, ⟨0, 0⟩) front) c

def Screen.cursor (s : Screen) : Cursor := ⟨s.row, s.col⟩

def placeOf (state : Escape × Screen) : Escape × Cursor := (state.1, state.2.cursor)

def renderFrom (state : Escape × Screen) (chars : List Char) : Escape × Screen :=
  chars.foldl (fun state c => renderChar c state) state

/-! ## One step -/

/-- A result in machine words, beside the one without a bound. -/
structure Checked {α : Type} (result : Except Fault α) (fits : Prop) (value : α) : Prop where
  ok : fits → result = .ok value
  error : ¬ fits → result = .error .overflow

theorem Checked.of_ok {α : Type} {fits : Prop} (value : α) (h : fits) : Checked (.ok value) fits value :=
  ⟨fun _ => rfl, fun hno => absurd h hno⟩

theorem Checked.congr {α : Type} {result : Except Fault α} {fits fits' : Prop} {value : α}
    (h : Checked result fits value) (hiff : fits' ↔ fits) : Checked result fits' value :=
  ⟨fun hfits => h.ok (hiff.mp hfits), fun hno => h.error fun hfits => hno (hiff.mpr hfits)⟩

theorem Checked.map {α β : Type} {result : Except Fault α} {fits : Prop} {value : α} (h : Checked result fits value)
    (f : α → β) : Checked (result.map f) fits (f value) :=
  ⟨fun hfits => by rw [h.ok hfits]; rfl, fun hno => by rw [h.error hno]; rfl⟩

theorem checked_add {α : Type} (a b : ℕ) (f : ℕ → α) :
    Checked (add64 a b >>= fun x => pure (f x)) (a + b < 2 ^ 64) (f (a + b)) := by
  constructor
  · intro hfits
    rw [add64, if_pos hfits]
    rfl
  · intro hno
    rw [add64, if_neg hno]
    rfl

variable {s : Screen} {state : Escape × Screen} {c : Char}

theorem Screen.checkRow_bind {α : Type} (hrow : s.row < s.lines.length) (next : Unit → Except Fault α) :
    (s.checkRow >>= next) = next () := by
  unfold Screen.checkRow
  rw [if_pos hrow]
  rfl

theorem Screen.tab64_checked (s : Screen) :
    Checked s.tab64 ((s.col / 8 + 1) * 8 < 2 ^ 64) { s with col := (s.col / 8 + 1) * 8 } := by
  unfold Screen.tab64
  constructor
  · intro hfits
    have hstop : s.col / 8 + 1 < 2 ^ 64 := by omega
    simp only [bind, Except.bind, add64, if_pos hstop, mul64, if_pos hfits]
    rfl
  · intro hno
    simp only [bind, Except.bind, add64]
    split
    · rename_i h
      split at h
      · cases h
      · cases h
        rfl
    · rename_i stop h
      split at h
      · cases h
        simp only [mul64, if_neg hno]
      · cases h

theorem Screen.write64_checked (hrow : s.row < s.lines.length) (c : Char) :
    Checked (s.write64 c) (s.cursor.WriteFits c) (s.write c) := by
  unfold Cursor.WriteFits Screen.write64 Screen.write Screen.cursor
  dsimp only
  by_cases hcr : c = '\r'
  · subst hcr
    exact .of_ok _ (by simp [isControl])
  · rw [if_neg hcr, if_neg hcr]
    by_cases hlf : c = '\n'
    · rw [if_pos hlf, if_pos hlf, if_pos hlf]
      exact checked_add s.row 1 fun row =>
        (⟨if row = s.lines.length then s.lines ++ [[]] else s.lines, row, 0⟩ : Screen)
    · rw [if_neg hlf, if_neg hlf, if_neg hlf]
      by_cases hbs : c = '\x08'
      · subst hbs
        exact .of_ok _ (by simp [isControl])
      · rw [if_neg hbs, if_neg hbs]
        by_cases htab : c = '\t'
        · rw [if_pos htab, if_pos htab, if_pos htab]
          exact s.tab64_checked
        · rw [if_neg htab, if_neg htab, if_neg htab]
          by_cases hcontrol : isControl c = true
          · rw [if_pos hcontrol, if_pos hcontrol]
            exact .of_ok _ (by simp [hcontrol])
          · rw [if_neg hcontrol, if_neg hcontrol]
            unfold Screen.put64
            rw [Screen.checkRow_bind hrow]
            have hput := checked_add s.col 1 fun col =>
              ({ s with lines := s.lines.modify s.row (fun line => Screen.putAt line s.col c), col := col } : Screen)
            exact hput.congr (by simp [hcontrol])

theorem eraseLine64_checked (hrow : s.row < s.lines.length) (params : List Char) :
    Checked (eraseLine64 (firstParam params) s) (s.cursor.CsiFits params 'K') (applyCsi params 'K' s) := by
  unfold eraseLine64 Cursor.CsiFits applyCsi Screen.cursor
  rw [Screen.checkRow_bind hrow]
  dsimp only
  simp only [show ('K' = 'C') = False by decide, show ('K' = 'D') = False by decide,
    show ('K' = 'G' ∨ 'K'.toNat = 0x60) = False by decide, show ('K' = 'A') = False by decide,
    show ('K' = 'B') = False by decide, show ('K' = 'J') = False by decide, if_false, if_true, false_and, true_and,
    false_implies, and_true]
  by_cases h0 : firstParam params = 0
  · rw [if_pos h0, if_pos h0]
    exact .of_ok _ (by omega)
  · rw [if_neg h0, if_neg h0]
    by_cases h1 : firstParam params = 1
    · rw [if_pos h1, if_pos h1]
      have hblank := checked_add s.col 1 fun stop =>
        ({ s with lines := s.lines.modify s.row (fun line => blankFirst line stop) } : Screen)
      exact hblank.congr (by simp [h1])
    · rw [if_neg h1, if_neg h1]
      split
      · exact .of_ok _ (by omega)
      · exact .of_ok _ (by omega)

theorem eraseDown64_checked (hrow : s.row < s.lines.length) :
    Checked (eraseDown64 s) (s.row + 1 < 2 ^ 64)
      { s with lines := (s.lines.modify s.row (fun line => line.take s.col)).take (s.row + 1) } := by
  unfold eraseDown64
  rw [Screen.checkRow_bind hrow]
  exact checked_add s.row 1 fun stop =>
    { s with lines := (s.lines.modify s.row (fun line => line.take s.col)).take stop }

theorem applyCsi64_checked (hrow : s.row < s.lines.length) (params : List Char) (c : Char) :
    Checked (applyCsi64 params c s) (s.cursor.CsiFits params c) (applyCsi params c s) := by
  by_cases hK : c = 'K'
  · subst hK
    exact eraseLine64_checked hrow params
  · unfold applyCsi64 Cursor.CsiFits applyCsi Screen.cursor
    dsimp only
    by_cases hC : c = 'C'
    · subst hC
      have hmove := checked_add s.col (max (firstParam params) 1) fun col => ({ s with col := col } : Screen)
      exact hmove.congr (by simp)
    · rw [if_neg hC, if_neg hC]
      by_cases hD : c = 'D'
      · subst hD
        exact .of_ok _ (by simp)
      · rw [if_neg hD, if_neg hD]
        by_cases hG : c = 'G' ∨ c.toNat = 0x60
        · rw [if_pos hG, if_pos hG]
          have hB : c ≠ 'B' := by rintro rfl; simp at hG
          have hJ : c ≠ 'J' := by rintro rfl; simp at hG
          exact .of_ok _ (by simp [hC, hB, hK, hJ])
        · rw [if_neg hG, if_neg hG]
          by_cases hA : c = 'A'
          · subst hA
            exact .of_ok _ (by simp)
          · rw [if_neg hA, if_neg hA]
            by_cases hB : c = 'B'
            · subst hB
              have hmove := checked_add s.row (max (firstParam params) 1) fun row =>
                ({ s with
                  row := row
                  lines := s.lines ++ List.replicate (row + 1 - s.lines.length) [] } : Screen)
              exact hmove.congr (by simp)
            · rw [if_neg hB, if_neg hB, if_neg hK, if_neg hK]
              by_cases hJ : c = 'J' ∧ firstParam params = 0
              · rw [if_pos hJ, if_pos hJ]
                exact (eraseDown64_checked hrow).congr (by simp [hJ])
              · rw [if_neg hJ, if_neg hJ]
                exact .of_ok _ (by simp only [hC, hB, hK, hJ]; simp)

theorem renderChar64_checked (hrow : state.2.row < state.2.lines.length) (c : Char) :
    Checked (renderChar64 state c) (StepFits (placeOf state) c) (renderChar c state) := by
  obtain ⟨escape, s⟩ := state
  cases escape with
  | none =>
    unfold renderChar64 StepFits renderChar placeOf
    dsimp only
    by_cases hesc : c = '\x1B'
    · rw [if_pos hesc, if_pos hesc]
      exact .of_ok _ fun hne => absurd hesc hne
    · rw [if_neg hesc, if_neg hesc]
      exact ((Screen.write64_checked hrow c).map (Prod.mk Escape.none)).congr (by simp [hesc])
  | csi params =>
    unfold renderChar64 StepFits renderChar placeOf
    dsimp only
    by_cases hends : endsCsi c = true
    · rw [if_pos hends, if_pos hends]
      exact ((applyCsi64_checked hrow params c).map (Prod.mk Escape.none)).congr (by simp [hends])
    · rw [if_neg hends, if_neg hends]
      exact .of_ok _ fun h => absurd h hends
  | started => exact .of_ok _ trivial
  | osc => exact .of_ok _ trivial
  | oscEsc => exact .of_ok _ trivial

/-! ## The cursor, and its row -/

theorem Screen.write_cursor (s : Screen) (c : Char) : (s.write c).cursor = s.cursor.write c := by
  unfold Screen.write Cursor.write Screen.cursor
  split
  · rfl
  · split
    · rfl
    · split
      · rfl
      · split
        · rfl
        · split
          · rfl
          · rfl

theorem applyCsi_cursor (s : Screen) (params : List Char) (c : Char) :
    (applyCsi params c s).cursor = s.cursor.csi params c := by
  unfold applyCsi Cursor.csi Screen.cursor
  dsimp only
  split
  · rfl
  · split
    · rfl
    · split
      · rfl
      · split
        · rfl
        · split
          · rfl
          · split
            · split
              · rfl
              · split
                · rfl
                · split
                  · rfl
                  · rfl
            · split
              · rfl
              · rfl

theorem renderChar_place (state : Escape × Screen) (c : Char) :
    placeOf (renderChar c state) = walkChar c (placeOf state) := by
  obtain ⟨escape, s⟩ := state
  unfold renderChar walkChar placeOf
  cases escape with
  | none => dsimp only; split <;> simp [Screen.write_cursor]
  | started => dsimp only; split <;> [rfl; split <;> rfl]
  | csi params => dsimp only; split <;> simp [applyCsi_cursor]
  | osc => dsimp only; split <;> [rfl; split <;> rfl]
  | oscEsc => rfl

theorem Screen.write_row (hrow : s.row < s.lines.length) (c : Char) :
    (s.write c).row < (s.write c).lines.length := by
  unfold Screen.write
  split
  · exact hrow
  · split
    · unfold Screen.newline
      split
      · simp; omega
      · simp; omega
    · split
      · exact hrow
      · split
        · exact hrow
        · split
          · exact hrow
          · unfold Screen.put
            simpa using hrow

/-- Erasing down drops the lines below the cursor, never its own. -/
theorem applyCsi_row (hrow : s.row < s.lines.length) (params : List Char) (c : Char) :
    (applyCsi params c s).row < (applyCsi params c s).lines.length := by
  unfold applyCsi
  dsimp only
  split
  · exact hrow
  · split
    · exact hrow
    · split
      · exact hrow
      · split
        · simp only; omega
        · split
          · simp; omega
          · split
            · split
              · simpa using hrow
              · split
                · simpa using hrow
                · split
                  · simpa using hrow
                  · exact hrow
            · split
              · simp; omega
              · exact hrow

theorem renderChar_row (hrow : state.2.row < state.2.lines.length) (c : Char) :
    (renderChar c state).2.row < (renderChar c state).2.lines.length := by
  obtain ⟨escape, s⟩ := state
  cases escape with
  | none =>
    unfold renderChar
    dsimp only
    split
    · exact hrow
    · exact Screen.write_row hrow c
  | started =>
    unfold renderChar
    dsimp only
    split
    · exact hrow
    · split
      · exact hrow
      · exact hrow
  | csi params =>
    unfold renderChar
    dsimp only
    split
    · exact applyCsi_row hrow params c
    · exact hrow
  | osc =>
    unfold renderChar
    dsimp only
    split
    · exact hrow
    · split
      · exact hrow
      · exact hrow
  | oscEsc => exact hrow

/-! ## The whole text -/

theorem foldlM_renderChar64 (chars : List Char) (hrow : state.2.row < state.2.lines.length) :
    Checked (chars.foldlM renderChar64 state)
      (∀ front c back, chars = front ++ c :: back → StepFits (walkFrom (placeOf state) front) c)
      (renderFrom state chars) := by
  induction chars generalizing state with
  | nil =>
    refine .of_ok _ fun front c back h => ?_
    simp at h
  | cons d chars ih =>
    have hstep := renderChar64_checked hrow d
    have hrest := ih (renderChar_row hrow d)
    constructor
    · intro hfits
      have htail : ∀ front c back, chars = front ++ c :: back →
          StepFits (walkFrom (placeOf (renderChar d state)) front) c := fun front c back h => by
        rw [renderChar_place]
        exact hfits (d :: front) c back (by rw [h]; rfl)
      rw [List.foldlM_cons, hstep.ok (hfits [] d chars rfl)]
      exact hrest.ok htail
    · intro hno
      by_cases hd : StepFits (placeOf state) d
      · rw [List.foldlM_cons, hstep.ok hd]
        refine hrest.error fun htail => hno fun front c back h => ?_
        cases front with
        | nil =>
          obtain ⟨rfl, rfl⟩ := List.cons.inj h
          exact hd
        | cons e front =>
          obtain ⟨rfl, rfl⟩ := List.cons.inj h
          have hback := htail front c back rfl
          rw [renderChar_place] at hback
          exact hback
      · rw [List.foldlM_cons, hstep.error hd]
        rfl

/-- The renderer never leaves its rows, and fails exactly where the cursor leaves 64 bits. -/
theorem renderTerminal64_checked (text : String) :
    Checked (renderTerminal64 text) (Fits text) (renderTerminal text) := by
  have hfold := @foldlM_renderChar64 (Escape.none, Screen.blank) text.toList (by decide)
  constructor
  · intro hfits
    unfold renderTerminal64
    rw [hfold.ok hfits]
    rfl
  · intro hno
    unfold renderTerminal64
    rw [hfold.error hno]
    rfl

end Haruspex.Shell
