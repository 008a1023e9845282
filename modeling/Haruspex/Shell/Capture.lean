import Haruspex.Shell.Integration

/-! What a terminal shows of the bytes it was given (`render_terminal` of `shell/integration.rs`). -/
namespace Haruspex.Shell
open Rust
set_option autoImplicit false

/-! ## The lines and the cursor -/

structure Screen where
  lines : List (List Char)
  row : ℕ
  col : ℕ
  deriving DecidableEq

namespace Screen

def blank : Screen := ⟨[[]], 0, 0⟩

/-- `line.resize(col + 1, ' ')` where it is too short, then `line[col] = c`. -/
def putAt (line : List Char) (col : ℕ) (c : Char) : List Char :=
  (line ++ List.replicate (col + 1 - line.length) ' ').set col c

def put (s : Screen) (c : Char) : Screen :=
  { s with lines := s.lines.modify s.row (fun line => putAt line s.col c), col := s.col + 1 }

def newline (s : Screen) : Screen :=
  { lines := if s.row + 1 = s.lines.length then s.lines ++ [[]] else s.lines
    row := s.row + 1
    col := 0 }

/-- A character that is not part of an escape sequence. -/
def write (s : Screen) (c : Char) : Screen :=
  if c = '\r' then { s with col := 0 }
  else if c = '\n' then s.newline
  else if c = '\x08' then { s with col := s.col - 1 }
  else if c = '\t' then { s with col := (s.col / 8 + 1) * 8 }
  else if isControl c then s
  else s.put c

/-- `trim_end` -/
def trimEnd (line : List Char) : List Char := (line.reverse.dropWhile isWhitespace).reverse

def text (s : Screen) : String := String.ofList (['\n'].intercalate (s.lines.map trimEnd))

end Screen

/-! ## Escape sequences -/

/-- The first number of the parameters, 0 for none. -/
def firstParam (params : List Char) : ℕ :=
  (parseUsize ((params.dropWhile (fun c => c = '?')).takeWhile (fun c => c ≠ ';'))).getD 0

/-- Blanks over the first cells of a line. -/
def blankFirst (line : List Char) (n : ℕ) : List Char :=
  List.replicate (min n line.length) ' ' ++ line.drop n

def applyCsi (params : List Char) (finalByte : Char) (s : Screen) : Screen :=
  let n := firstParam params
  let step := max n 1
  if finalByte = 'C' then { s with col := s.col + step }
  else if finalByte = 'D' then { s with col := s.col - step }
  else if finalByte = 'G' ∨ finalByte.toNat = 0x60 then { s with col := step - 1 }
  else if finalByte = 'A' then { s with row := s.row - step }
  else if finalByte = 'B' then
    { s with
      row := s.row + step
      lines := s.lines ++ List.replicate (s.row + step + 1 - s.lines.length) [] }
  else if finalByte = 'K' then
    if n = 0 then { s with lines := s.lines.modify s.row (fun line => line.take s.col) }
    else if n = 1 then
      { s with lines := s.lines.modify s.row (fun line => blankFirst line (s.col + 1)) }
    else if n = 2 then { s with lines := s.lines.modify s.row (fun _ => []) }
    else s
  else if finalByte = 'J' ∧ n = 0 then
    { s with lines := (s.lines.modify s.row (fun line => line.take s.col)).take (s.row + 1) }
  else s

/-- How far into an escape sequence the text is. -/
inductive Escape where
  | none
  | started
  | csi (params : List Char)
  | osc
  | oscEsc

def endsCsi (c : Char) : Bool := c.isAlpha || c = '~' || c = '@'

/-- One more character; a sequence that the text ends in has no effect. -/
def renderChar (c : Char) (state : Escape × Screen) : Escape × Screen :=
  match state with
  | (.none, s) => if c = '\x1B' then (.started, s) else (.none, s.write c)
  | (.started, s) => if c = '[' then (.csi [], s) else if c = ']' then (.osc, s) else (.none, s)
  | (.csi params, s) =>
    if endsCsi c then (.none, applyCsi params c s) else (.csi (params ++ [c]), s)
  | (.osc, s) => if c = '\x07' then (.none, s) else if c = '\x1B' then (.oscEsc, s) else (.osc, s)
  | (.oscEsc, s) => (.none, s)

def renderTerminal (text : String) : String :=
  (text.toList.foldl (fun state c => renderChar c state) (Escape.none, Screen.blank)).2.text

/-- What the terminal shows of some bytes. -/
def bytesToCleanText (bytes : List UInt8) : String := renderTerminal (fromUtf8Lossy bytes)

theorem bytesToCleanText_nil : bytesToCleanText [] = "" := by decide

example : renderTerminal "50%\r100%\nab\x08c\x1B[31m!\tx \x1B]0;t\x07" = "100%\nac!     x" := by decide

end Haruspex.Shell

/-! Commands read back from the markers and the ring of output. -/
namespace Haruspex.Shell
open Rust
set_option autoImplicit false

structure CapturedRegion where
  commandLine : String
  output : String
  exitCode : Option ℤ
  cwd : Option String
  /-- Either range fell off the end of the ring of output. -/
  truncated : Bool
  /-- The command still runs. -/
  pending : Bool
  outputStart : ℕ
  outputEnd : ℕ
  deriving DecidableEq

/-! ## The last entry of a kind -/

/-- The last entry that passes (`rposition`), with the entries before and after it. -/
def splitLast {A : Type} (p : A → Bool) : List A → Option (List A × A × List A)
  | [] => none
  | a :: l =>
    match splitLast p l with
    | some (before, x, after) => some (a :: before, x, after)
    | none => if p a then some ([], a, l) else none

theorem splitLast_eq_none {A : Type} {p : A → Bool} {l : List A} (h : splitLast p l = none) :
    ∀ a ∈ l, p a = false := by
  induction l with
  | nil => simp
  | cons a l ih =>
    unfold splitLast at h
    split at h
    · cases h
    · rename_i hl
      split at h
      · cases h
      · rename_i ha
        simpa [ha] using ih hl

theorem splitLast_eq_some {A : Type} {p : A → Bool} {l before after : List A} {x : A}
    (h : splitLast p l = some (before, x, after)) :
    l = before ++ x :: after ∧ p x = true ∧ ∀ a ∈ after, p a = false := by
  induction l generalizing before with
  | nil => cases h
  | cons a l ih =>
    unfold splitLast at h
    split at h
    · rename_i before' x' after' hl
      cases h
      obtain ⟨heq, hx, hafter⟩ := ih hl
      exact ⟨by rw [heq, List.cons_append], hx, hafter⟩
    · rename_i hl
      split at h
      · rename_i ha
        cases h
        exact ⟨rfl, ha, splitLast_eq_none hl⟩
      · cases h

namespace Integration

/-! ## Bytes of the ring -/

/-- The bytes of a range, if the ring has them all. -/
def sliceOutput (s : Integration) (start stop : ℕ) : Option (List UInt8) :=
  if start < s.outputFirstOffset then none
  else if stop < start then none
  else if s.output.length < stop - s.outputFirstOffset then none
  else some ((s.output.take (stop - s.outputFirstOffset)).drop (start - s.outputFirstOffset))

/-- A command's text, and whether it was cut short. -/
def resolveCommandLine (s : Integration) (b c : Marker) : String × Bool :=
  match c.commandLine with
  | some cl => (cl, false)
  | none =>
    let cmdBytes := s.sliceOutput b.seqEnd c.seqStart
    (bytesToCleanText (cmdBytes.getD []), cmdBytes.isNone)

/-! ## Commands that ended -/

def ofKind (kind : MarkerKind) (m : Marker) : Bool := m.kind = kind

def completedCommand (s : Integration) (b c d : Marker) : CapturedRegion :=
  let outBytes := s.sliceOutput c.seqEnd d.seqStart
  let (commandLine, cmdTruncated) := s.resolveCommandLine b c
  { commandLine := commandLine
    output := bytesToCleanText (outBytes.getD [])
    exitCode := d.exitCode
    cwd := d.cwd.or (c.cwd.or b.cwd)
    truncated := cmdTruncated || outBytes.isNone
    pending := false
    outputStart := c.seqEnd
    outputEnd := d.seqStart }

/-- The last cycles of B, C and D among some markers, oldest first. -/
def captureBack (s : Integration) (markers : List Marker) : ℕ → List CapturedRegion
  | 0 => []
  | limit + 1 =>
    match splitLast (ofKind .outputEnd) markers with
    | none => []
    | some (beforeD, d, _) =>
      match splitLast (ofKind .outputStart) beforeD with
      | none => []
      | some (beforeC, c, _) =>
        match splitLast (ofKind .commandStart) beforeC with
        | none => []
        | some (beforeB, b, _) =>
          captureBack s beforeB limit ++ [s.completedCommand b c d]

def captureRecentCommands (s : Integration) (limit : ℕ) : List CapturedRegion :=
  s.captureBack s.markers limit

/-! ## The command that still runs -/

/-- The B and C markers of the command in flight. -/
def pendingMarkers (s : Integration) : Option (Marker × Marker) :=
  match splitLast (ofKind .outputStart) s.markers with
  | none => none
  | some (beforeC, c, after) =>
    if after.any (ofKind .outputEnd) then none
    else
      match splitLast (ofKind .commandStart) beforeC with
      | none => none
      | some (_, b, _) => some (b, c)

def pendingRegion (s : Integration) (b c : Marker) (pendingFrom : ℕ) : CapturedRegion :=
  let start := max pendingFrom c.seqEnd
  let stop := max s.totalOffset start
  let outBytes := s.sliceOutput start stop
  let (commandLine, cmdTruncated) := s.resolveCommandLine b c
  { commandLine := commandLine
    output := bytesToCleanText (outBytes.getD [])
    exitCode := none
    cwd := c.cwd.or b.cwd
    truncated := cmdTruncated || outBytes.isNone
    pending := true
    outputStart := start
    outputEnd := stop }

def pendingCommand (s : Integration) (pendingFrom : ℕ) : Option CapturedRegion :=
  s.pendingMarkers.map (fun (b, c) => s.pendingRegion b c pendingFrom)

def captureRecentCommandsWithPending (s : Integration) (limit pendingFrom : ℕ) :
    List CapturedRegion :=
  s.captureRecentCommands limit ++ (s.pendingCommand pendingFrom).toList

/-! ## Which regions are pending -/

theorem captureBack_complete {s : Integration} {markers : List Marker} {limit : ℕ}
    {region : CapturedRegion} (h : region ∈ s.captureBack markers limit) :
    region.pending = false := by
  induction limit generalizing markers with
  | zero => simp [captureBack] at h
  | succ limit ih =>
    unfold captureBack at h
    split at h
    · simp at h
    · split at h
      · simp at h
      · split at h
        · simp at h
        · rw [List.mem_append, List.mem_singleton] at h
          cases h with
          | inl hbefore => exact ih hbefore
          | inr hlast => rw [hlast]; rfl

/-- The pending region, if any, is the one region that is marked so. -/
theorem filter_pending (s : Integration) (limit pendingFrom : ℕ) :
    (s.captureRecentCommandsWithPending limit pendingFrom).filter (·.pending) =
      (s.pendingCommand pendingFrom).toList := by
  unfold captureRecentCommandsWithPending
  rw [List.filter_append]
  have hbefore : (s.captureRecentCommands limit).filter (·.pending) = [] := by
    rw [List.filter_eq_nil_iff]
    intro region hmem
    simp [captureBack_complete hmem]
  rw [hbefore, List.nil_append, pendingCommand]
  cases s.pendingMarkers with
  | none => rfl
  | some pair => rfl

/-- The command in flight is the last that started, and none ended after it. -/
theorem pendingMarkers_eq_some {s : Integration} {b c : Marker} (h : s.pendingMarkers = some (b, c)) :
    ∃ before between after, s.markers = before ++ b :: between ++ c :: after ∧
      b.kind = .commandStart ∧ c.kind = .outputStart ∧
      ∀ m ∈ after, m.kind ≠ .outputStart ∧ m.kind ≠ .outputEnd := by
  unfold pendingMarkers at h
  split at h
  · cases h
  · rename_i beforeC c' after hc
    split at h
    · cases h
    · rename_i hnone
      split at h
      · cases h
      · rename_i before b' between hb
        cases h
        obtain ⟨hmarkers, hckind, hafter⟩ := splitLast_eq_some hc
        obtain ⟨hbefore, hbkind, -⟩ := splitLast_eq_some hb
        refine ⟨before, between, after, by rw [hmarkers, hbefore],
          by simpa [ofKind] using hbkind, by simpa [ofKind] using hckind, fun m hmem => ?_⟩
        have hstart := hafter m hmem
        simp only [List.any_eq_true, not_exists, not_and] at hnone
        exact ⟨by simpa [ofKind] using hstart, by simpa [ofKind] using hnone m hmem⟩

end Integration

end Haruspex.Shell
