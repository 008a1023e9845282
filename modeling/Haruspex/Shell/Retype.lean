import Haruspex.Shell.Cursor

/-! What rendering leaves on the lines, and what happens to it when it is rendered again. -/
namespace Haruspex.Shell
open Rust
set_option autoImplicit false

/-! ## What stays on the lines -/

def Screen.Lines (P : List Char → Prop) (s : Screen) : Prop := ∀ line ∈ s.lines, P line

def Plain (line : List Char) : Prop := ∀ c ∈ line, isControl c = false

def Short (line : List Char) : Prop := line.length < 2 ^ 64

variable {P : List Char → Prop} {s : Screen} {state : Escape × Screen} {lines : List (List Char)}

theorem forall_mem_modify {f : List Char → List Char} (hf : ∀ line, P line → P (f line))
    (h : ∀ line ∈ lines, P line) (i : ℕ) : ∀ line ∈ lines.modify i f, P line := by
  induction lines generalizing i with
  | nil => simp
  | cons line lines ih =>
    have hrest := ih fun other hother => h other (List.mem_cons_of_mem line hother)
    have hline := h line List.mem_cons_self
    cases i with
    | zero =>
      rw [List.modify_zero_cons]
      exact List.forall_mem_cons.mpr ⟨hf line hline, fun other hother => h other (List.mem_cons_of_mem line hother)⟩
    | succ i =>
      rw [List.modify_succ_cons]
      exact List.forall_mem_cons.mpr ⟨hline, hrest i⟩

theorem Screen.write_lines {c : Char} (hnil : P [])
    (hput : isControl c = false → ∀ line, P line → P (putAt line s.col c)) (h : s.Lines P) :
    (s.write c).Lines P := by
  unfold Screen.write
  split
  · exact h
  · split
    · unfold Screen.newline Screen.Lines
      dsimp only
      split
      · intro line hline
        obtain hline | hline := List.mem_append.mp hline
        · exact h line hline
        · rw [List.mem_singleton.mp hline]
          exact hnil
      · exact h
    · split
      · exact h
      · split
        · exact h
        · split
          · exact h
          · rename_i hcontrol
            exact forall_mem_modify (hput (by simpa using hcontrol)) h s.row

theorem applyCsi_lines (hnil : P []) (htake : ∀ line n, P line → P (line.take n))
    (hblank : ∀ line n, P line → P (blankFirst line n)) (h : s.Lines P) (params : List Char) (c : Char) :
    (applyCsi params c s).Lines P := by
  unfold applyCsi
  dsimp only
  split
  · exact h
  · split
    · exact h
    · split
      · exact h
      · split
        · exact h
        · split
          · intro line hline
            obtain hline | hline := List.mem_append.mp hline
            · exact h line hline
            · rw [List.eq_of_mem_replicate hline]
              exact hnil
          · split
            · split
              · exact forall_mem_modify (fun line => htake line s.col) h s.row
              · split
                · exact forall_mem_modify (fun line => hblank line (s.col + 1)) h s.row
                · split
                  · exact forall_mem_modify (fun _ _ => hnil) h s.row
                  · exact h
            · split
              · intro line hline
                exact forall_mem_modify (fun line => htake line s.col) h s.row line (List.mem_of_mem_take hline)
              · exact h

theorem renderChar_lines {c : Char} (hnil : P []) (htake : ∀ line n, P line → P (line.take n))
    (hblank : ∀ line n, P line → P (blankFirst line n))
    (hput : ∀ s, state = (.none, s) → c ≠ '\x1B' → isControl c = false → ∀ line, P line →
      P (Screen.putAt line s.col c))
    (h : state.2.Lines P) : (renderChar c state).2.Lines P := by
  obtain ⟨escape, s⟩ := state
  unfold renderChar
  cases escape with
  | none =>
    dsimp only
    split
    · exact h
    · rename_i hesc
      exact Screen.write_lines hnil (hput s rfl hesc) h
  | started => dsimp only; split <;> [exact h; split <;> exact h]
  | csi params =>
    dsimp only
    split
    · exact applyCsi_lines hnil htake hblank h params c
    · exact h
  | osc => dsimp only; split <;> [exact h; split <;> exact h]
  | oscEsc => exact h

/-! ## Plain, short, and not too many -/

theorem plain_blankFirst (line : List Char) (n : ℕ) (h : Plain line) : Plain (blankFirst line n) := by
  intro c hc
  obtain hc | hc := List.mem_append.mp hc
  · rw [List.eq_of_mem_replicate hc]
    decide
  · exact h c (List.mem_of_mem_drop hc)

theorem plain_putAt {c : Char} (hc : isControl c = false) (line : List Char) (col : ℕ) (h : Plain line) :
    Plain (Screen.putAt line col c) := by
  intro d hd
  obtain hd | rfl := List.mem_or_eq_of_mem_set hd
  · obtain hd | hd := List.mem_append.mp hd
    · exact h d hd
    · rw [List.eq_of_mem_replicate hd]
      decide
  · exact hc

theorem length_putAt (line : List Char) (col : ℕ) (c : Char) :
    (Screen.putAt line col c).length = max line.length (col + 1) := by
  unfold Screen.putAt
  rw [List.length_set, List.length_append, List.length_replicate]
  omega

theorem length_blankFirst (line : List Char) (n : ℕ) : (blankFirst line n).length = line.length := by
  unfold blankFirst
  rw [List.length_append, List.length_replicate, List.length_drop]
  omega

/-- What a screen is whose text can be rendered once more. -/
structure Screen.Held (s : Screen) : Prop where
  row : s.row < s.lines.length
  rows : s.lines.length ≤ 2 ^ 64
  plain : s.Lines Plain
  short : s.Lines Short

theorem plain_renderChar (h : state.2.Lines Plain) (c : Char) : (renderChar c state).2.Lines Plain :=
  renderChar_lines (fun _ hc => absurd hc List.not_mem_nil)
    (fun _ _ hline d hd => hline d (List.mem_of_mem_take hd)) plain_blankFirst
    (fun s _ _ hc line => plain_putAt hc line s.col) h

theorem short_renderChar {c : Char} (hfits : StepFits (placeOf state) c) (h : state.2.Lines Short) :
    (renderChar c state).2.Lines Short := by
  refine renderChar_lines (by unfold Short; simp) (fun line n hline => ?_) (fun line n hline => ?_)
    (fun s hs hesc hc line hline => ?_) h
  · unfold Short at hline ⊢
    rw [List.length_take]
    omega
  · unfold Short at hline ⊢
    rw [length_blankFirst]
    exact hline
  · subst hs
    have hwrite : s.cursor.WriteFits c := hfits hesc
    have hcol : s.col + 1 < 2 ^ 64 := by
      unfold Cursor.WriteFits at hwrite
      split at hwrite
      · rename_i hlf
        subst hlf
        cases hc
      · split at hwrite
        · rename_i htab
          subst htab
          cases hc
        · exact hwrite hc
    unfold Short at hline ⊢
    rw [length_putAt]
    omega

theorem write_rows {c : Char} (hfits : s.cursor.WriteFits c) (h : s.lines.length ≤ 2 ^ 64) :
    (s.write c).lines.length ≤ 2 ^ 64 := by
  unfold Screen.write
  split
  · exact h
  · split
    · rename_i hlf
      subst hlf
      have hrow : s.row + 1 < 2 ^ 64 := hfits
      unfold Screen.newline
      dsimp only
      split
      · rw [List.length_append]
        simp only [List.length_cons, List.length_nil]
        omega
      · exact h
    · split
      · exact h
      · split
        · exact h
        · split
          · exact h
          · unfold Screen.put
            rw [List.length_modify]
            exact h

theorem applyCsi_rows {c : Char} {params : List Char} (hfits : s.cursor.CsiFits params c)
    (h : s.lines.length ≤ 2 ^ 64) : (applyCsi params c s).lines.length ≤ 2 ^ 64 := by
  unfold applyCsi
  dsimp only
  split
  · exact h
  · split
    · exact h
    · split
      · exact h
      · split
        · exact h
        · split
          · rename_i hB
            have hrow : s.row + max (firstParam params) 1 < 2 ^ 64 := hfits.2.1 hB
            rw [List.length_append, List.length_replicate]
            omega
          · split
            · split
              · simpa using h
              · split
                · simpa using h
                · split
                  · simpa using h
                  · exact h
            · split
              · rw [List.length_take, List.length_modify]
                omega
              · exact h

theorem Screen.Held.renderChar {c : Char} (hfits : StepFits (placeOf state) c) (h : state.2.Held) :
    (renderChar c state).2.Held := by
  refine ⟨renderChar_row h.row c, ?_, plain_renderChar h.plain c, short_renderChar hfits h.short⟩
  obtain ⟨escape, s⟩ := state
  unfold Shell.renderChar
  cases escape with
  | none =>
    dsimp only
    split
    · exact h.rows
    · rename_i hesc
      exact write_rows (hfits hesc) h.rows
  | started => dsimp only; split <;> [exact h.rows; split <;> exact h.rows]
  | csi params =>
    dsimp only
    split
    · rename_i hends
      exact applyCsi_rows (hfits hends) h.rows
    · exact h.rows
  | osc => dsimp only; split <;> [exact h.rows; split <;> exact h.rows]
  | oscEsc => exact h.rows

theorem held_renderFrom {chars : List Char} (h : state.2.Held)
    (hfits : ∀ front c back, chars = front ++ c :: back → StepFits (walkFrom (placeOf state) front) c) :
    (renderFrom state chars).2.Held := by
  induction chars generalizing state with
  | nil => exact h
  | cons d chars ih =>
    refine ih (h.renderChar (hfits [] d chars rfl)) fun front c back heq => ?_
    rw [renderChar_place]
    exact hfits (d :: front) c back (by rw [heq]; rfl)

/-! ## The ends of the lines -/

def Trimmed (line : List Char) : Prop := ∀ c, line.getLast? = some c → isWhitespace c = false

theorem trimmed_trimEnd (line : List Char) : Trimmed (Screen.trimEnd line) := by
  intro c hc
  unfold Screen.trimEnd at hc
  rw [List.getLast?_reverse] at hc
  have hhead := List.head?_dropWhile_not isWhitespace line.reverse
  rw [hc] at hhead
  simpa using hhead

theorem trimEnd_of_trimmed {line : List Char} (h : Trimmed line) : Screen.trimEnd line = line := by
  unfold Screen.trimEnd
  have hdrop : line.reverse.dropWhile isWhitespace = line.reverse := by
    cases hline : line.reverse with
    | nil => rfl
    | cons c rest =>
      have hlast : line.getLast? = some c := by
        rw [← List.head?_reverse, hline]
        rfl
      rw [List.dropWhile_cons_of_neg (by simp [h c hlast])]
  rw [hdrop, List.reverse_reverse]

theorem mem_of_mem_trimEnd {line : List Char} {c : Char} (h : c ∈ Screen.trimEnd line) : c ∈ line := by
  unfold Screen.trimEnd at h
  exact List.mem_reverse.mp ((List.dropWhile_sublist _).subset (List.mem_reverse.mp h))

theorem length_trimEnd_le (line : List Char) : (Screen.trimEnd line).length ≤ line.length := by
  unfold Screen.trimEnd
  rw [List.length_reverse]
  have hdrop := (List.dropWhile_sublist (l := line.reverse) isWhitespace).length_le
  rwa [List.length_reverse] at hdrop

/-! ## Rendering plain lines -/

/-- The cursor after the last character of the last line. -/
def typed (done : List (List Char)) (line : List Char) : Screen := ⟨done ++ [line], done.length, line.length⟩

theorem modify_snoc (done : List (List Char)) (line : List Char) (f : List Char → List Char) :
    (done ++ [line]).modify done.length f = done ++ [f line] := by
  induction done with
  | nil => rfl
  | cons other done ih => rw [List.cons_append, List.length_cons, List.modify_succ_cons, ih, List.cons_append]

theorem renderChar64_typed {done : List (List Char)} {line : List Char} {c : Char} (hc : isControl c = false)
    (hlen : line.length + 1 < 2 ^ 64) :
    renderChar64 (.none, typed done line) c = .ok (.none, typed done (line ++ [c])) := by
  have hrow : (typed done line).row < (typed done line).lines.length := by
    unfold typed
    simp
  have hlf : c ≠ '\n' := by rintro rfl; cases hc
  have hesc : c ≠ '\x1B' := by rintro rfl; cases hc
  have hcr : c ≠ '\r' := by rintro rfl; cases hc
  have hbs : c ≠ '\x08' := by rintro rfl; cases hc
  have htab : c ≠ '\t' := by rintro rfl; cases hc
  have hfits : StepFits (placeOf (.none, typed done line)) c := by
    intro _
    unfold Cursor.WriteFits
    rw [if_neg hlf, if_neg htab]
    exact fun _ => hlen
  rw [(@renderChar64_checked (.none, typed done line) hrow c).ok hfits]
  unfold renderChar Screen.write Screen.put typed Screen.putAt
  simp [hesc, hcr, hlf, hbs, htab, hc, modify_snoc]

theorem renderChar64_newline {done : List (List Char)} {line : List Char} (hrows : done.length + 1 < 2 ^ 64) :
    renderChar64 (.none, typed done line) '\n' = .ok (.none, typed (done ++ [line]) []) := by
  have hrow : (typed done line).row < (typed done line).lines.length := by
    unfold typed
    simp
  have hfits : StepFits (placeOf (.none, typed done line)) '\n' := fun _ => hrows
  rw [(@renderChar64_checked (.none, typed done line) hrow '\n').ok hfits]
  unfold renderChar Screen.write Screen.newline typed
  simp

theorem foldlM_typed {done : List (List Char)} (line more : List Char) (hplain : Plain more)
    (hlen : line.length + more.length < 2 ^ 64) :
    more.foldlM renderChar64 (.none, typed done line) = .ok (.none, typed done (line ++ more)) := by
  induction more generalizing line with
  | nil => rw [List.append_nil]; rfl
  | cons c more ih =>
    rw [List.length_cons] at hlen
    rw [List.foldlM_cons, renderChar64_typed (hplain c List.mem_cons_self) (by omega)]
    have hmore := ih (line ++ [c]) (fun d hd => hplain d (List.mem_cons_of_mem c hd))
      (by rw [List.length_append, List.length_singleton]; omega)
    rw [List.append_assoc] at hmore
    exact hmore

/-- Plain short lines, typed one after the other, are the lines of the screen. -/
theorem foldlM_lines {done lines : List (List Char)} (hne : lines ≠ []) (hplain : ∀ line ∈ lines, Plain line)
    (hshort : ∀ line ∈ lines, Short line) (hrows : done.length + lines.length ≤ 2 ^ 64) :
    ∃ screen, (['\n'].intercalate lines).foldlM renderChar64 (.none, typed done []) = .ok (.none, screen) ∧
      screen.lines = done ++ lines := by
  induction lines generalizing done with
  | nil => exact absurd rfl hne
  | cons line lines ih =>
    have hline := @foldlM_typed done [] line (hplain line List.mem_cons_self)
      (by rw [List.length_nil, Nat.zero_add]; exact hshort line List.mem_cons_self)
    rw [List.nil_append] at hline
    cases lines with
    | nil => exact ⟨typed done line, by rw [List.intercalate_singleton]; exact hline, rfl⟩
    | cons next lines =>
      rw [List.length_cons, List.length_cons] at hrows
      obtain ⟨screen, hfold, hlines⟩ := @ih (done ++ [line]) (List.cons_ne_nil next lines)
        (fun other hother => hplain other (List.mem_cons_of_mem line hother))
        (fun other hother => hshort other (List.mem_cons_of_mem line hother))
        (by rw [List.length_append, List.length_singleton, List.length_cons]; omega)
      refine ⟨screen, ?_, by rw [hlines, List.append_assoc]; rfl⟩
      rw [List.intercalate_cons_cons, List.append_assoc, List.foldlM_append, hline]
      change (('\n' :: ['\n'].intercalate (next :: lines)).foldlM renderChar64 (.none, typed done line)) = _
      rw [List.foldlM_cons, renderChar64_newline (by omega)]
      exact hfold

/-! ## The rendered text -/

/-- What a text needs for its rendering to be safe: no row that is not there, no number beyond 64 bits, and a result
without control characters or blanks at the ends of lines, that rendering leaves alone. -/
structure RendersSafely (text : String) : Prop where
  inside : renderTerminal64 text ≠ .error .index
  shown : ∃ out, renderTerminal64 text = .ok out ∧
    (∀ c ∈ out.toList, isControl c = true → c = '\n') ∧
    (∀ line ∈ out.toList.splitOn '\n', Trimmed line) ∧
    renderTerminal64 out = .ok out

theorem renderTerminal64_inside (text : String) : renderTerminal64 text ≠ .error .index := by
  intro h
  by_cases hfits : Fits text
  · rw [(renderTerminal64_checked text).ok hfits] at h
    cases h
  · rw [(renderTerminal64_checked text).error hfits] at h
    cases h

theorem mem_intercalate {c : Char} (h : c ∈ ['\n'].intercalate lines) : c = '\n' ∨ ∃ line ∈ lines, c ∈ line := by
  induction lines with
  | nil => cases h
  | cons line lines ih =>
    cases lines with
    | nil =>
      rw [List.intercalate_singleton] at h
      exact .inr ⟨line, List.mem_cons_self, h⟩
    | cons next lines =>
      rw [List.intercalate_cons_cons, List.append_assoc] at h
      obtain h | h := List.mem_append.mp h
      · exact .inr ⟨line, List.mem_cons_self, h⟩
      · obtain rfl | h := List.mem_cons.mp h
        · exact .inl rfl
        · obtain rfl | ⟨other, hother, hmem⟩ := ih h
          · exact .inl rfl
          · exact .inr ⟨other, List.mem_cons_of_mem line hother, hmem⟩

theorem not_mem_plain {line : List Char} (h : Plain line) : '\n' ∉ line := fun hmem => nomatch h _ hmem

theorem held_blank : Screen.blank.Held :=
  ⟨by decide, by decide, by unfold Screen.Lines Screen.blank Plain; simp, by unfold Screen.Lines Screen.blank Short; simp⟩

namespace Screen.Held

variable {screen : Screen}

theorem plain_trim (h : screen.Held) : ∀ line ∈ screen.lines.map trimEnd, Plain line := by
  intro line hline
  obtain ⟨source, hsource, rfl⟩ := List.mem_map.mp hline
  exact fun c hc => h.plain source hsource c (mem_of_mem_trimEnd hc)

theorem short_trim (h : screen.Held) : ∀ line ∈ screen.lines.map trimEnd, Short line := by
  intro line hline
  obtain ⟨source, hsource, rfl⟩ := List.mem_map.mp hline
  exact lt_of_le_of_lt (length_trimEnd_le source) (h.short source hsource)

theorem map_trim_ne (h : screen.Held) : screen.lines.map trimEnd ≠ [] := by
  intro hnil
  have hrow := h.row
  rw [List.map_eq_nil_iff.mp hnil] at hrow
  exact absurd hrow (Nat.not_lt_zero screen.row)

theorem splitOn_text (h : screen.Held) : screen.text.toList.splitOn '\n' = screen.lines.map trimEnd := by
  unfold Screen.text
  rw [String.toList_ofList]
  exact List.splitOn_intercalate '\n' (fun line hline => not_mem_plain (h.plain_trim line hline)) h.map_trim_ne

theorem trimmed_text (h : screen.Held) : ∀ line ∈ screen.text.toList.splitOn '\n', Trimmed line := by
  rw [h.splitOn_text]
  intro line hline
  obtain ⟨source, -, rfl⟩ := List.mem_map.mp hline
  exact trimmed_trimEnd source

theorem control_text (h : screen.Held) : ∀ c ∈ screen.text.toList, isControl c = true → c = '\n' := by
  intro c hc hcontrol
  unfold Screen.text at hc
  rw [String.toList_ofList] at hc
  obtain rfl | ⟨line, hline, hmem⟩ := mem_intercalate hc
  · rfl
  · rw [h.plain_trim line hline c hmem] at hcontrol
    cases hcontrol

theorem rerender (h : screen.Held) : renderTerminal64 screen.text = .ok screen.text := by
  obtain ⟨again, hfold, hlines⟩ := @foldlM_lines [] _ h.map_trim_ne h.plain_trim h.short_trim
    (by rw [List.length_nil, Nat.zero_add, List.length_map]; exact h.rows)
  have htext : again.text = screen.text := by
    unfold Screen.text
    rw [hlines, List.nil_append, List.map_map]
    congr 2
    refine List.map_congr_left fun line _ => ?_
    exact trimEnd_of_trimmed (trimmed_trimEnd line)
  unfold renderTerminal64
  have htoList : screen.text.toList = ['\n'].intercalate (screen.lines.map trimEnd) := String.toList_ofList
  rw [htoList]
  change (['\n'].intercalate (screen.lines.map trimEnd)).foldlM renderChar64 (.none, typed [] []) >>= _ = _
  rw [hfold]
  change Except.ok again.text = _
  rw [htext]

end Screen.Held

/-- Rendering is safe for exactly the texts whose cursor stays in 64 bits. -/
theorem rendersSafely_iff (text : String) : RendersSafely text ↔ Fits text := by
  have hchecked := renderTerminal64_checked text
  constructor
  · intro ⟨_, out, hout, _⟩
    by_contra hno
    rw [hchecked.error hno] at hout
    cases hout
  · intro hfits
    have hheld : (renderFrom (.none, Screen.blank) text.toList).2.Held := held_renderFrom held_blank hfits
    exact ⟨renderTerminal64_inside text,
      ⟨_, hchecked.ok hfits, hheld.control_text, hheld.trimmed_text, hheld.rerender⟩⟩

/-- One character printed, then as far to the right as a number goes. -/
theorem rendersUnsafely : ¬ ∀ text, RendersSafely text := by
  intro h
  obtain ⟨out, hout, _⟩ := (h "a\x1B[18446744073709551615C").shown
  have hover : renderTerminal64 "a\x1B[18446744073709551615C" = .error .overflow := by decide +kernel
  rw [hover] at hout
  cases hout

/-! ## Texts without escape sequences -/

theorem Cursor.write_near {k : Cursor} {c : Char} {n : ℕ} (hrow : k.row ≤ n) (hcol : k.col ≤ 8 * n) :
    (k.write c).row ≤ n + 1 ∧ (k.write c).col ≤ 8 * (n + 1) := by
  unfold Cursor.write
  split
  · exact ⟨by dsimp only; omega, by dsimp only; omega⟩
  · split
    · exact ⟨by dsimp only; omega, by dsimp only; omega⟩
    · split
      · exact ⟨by dsimp only; omega, by dsimp only; omega⟩
      · split
        · exact ⟨by dsimp only; omega, by dsimp only; omega⟩
        · split
          · exact ⟨by omega, by omega⟩
          · exact ⟨by dsimp only; omega, by dsimp only; omega⟩

theorem walkFrom_plain {k : Cursor} {chars : List Char} {n : ℕ} (hrow : k.row ≤ n) (hcol : k.col ≤ 8 * n)
    (hesc : '\x1B' ∉ chars) :
    ∃ k', walkFrom (.none, k) chars = (.none, k') ∧ k'.row ≤ n + chars.length ∧ k'.col ≤ 8 * (n + chars.length) := by
  induction chars generalizing k n with
  | nil => exact ⟨k, rfl, hrow, hcol⟩
  | cons c chars ih =>
    have hc : c ≠ '\x1B' := fun h => hesc (h ▸ List.mem_cons_self)
    have hchars : '\x1B' ∉ chars := fun hmem => hesc (List.mem_cons_of_mem c hmem)
    obtain ⟨hrow', hcol'⟩ := Cursor.write_near (c := c) hrow hcol
    obtain ⟨k', hwalk, hr, hl⟩ := ih hrow' hcol' hchars
    refine ⟨k', ?_, by rw [List.length_cons]; omega, by rw [List.length_cons]; omega⟩
    change walkFrom (walkChar c (.none, k)) chars = _
    unfold walkChar
    dsimp only
    rw [if_neg hc]
    exact hwalk

/-- Only escape sequences move the cursor so far. -/
theorem rendersSafely_of_no_escape {text : String} (hesc : '\x1B' ∉ text.toList)
    (hlen : text.toList.length < 2 ^ 60) : RendersSafely text := by
  rw [rendersSafely_iff]
  intro front c back hsplit
  have hfront : '\x1B' ∉ front := fun hmem => hesc (by rw [hsplit]; exact List.mem_append_left _ hmem)
  obtain ⟨k, hwalk, hrow, hcol⟩ := walkFrom_plain (k := ⟨0, 0⟩) (n := 0) (le_refl 0) (Nat.zero_le _) hfront
  rw [hwalk]
  intro _
  rw [hsplit, List.length_append, List.length_cons] at hlen
  unfold Cursor.WriteFits
  split
  · omega
  · split
    · omega
    · intro _
      omega

end Haruspex.Shell
