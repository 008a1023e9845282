import Haruspex.Library.Pages
import Haruspex.Rust.Text
import Haruspex.Rust.Utf8

/-! Reading a text by windows of lines (`render_text_read` in `fs_tools/path.rs`). An operation that panics in
Rust is `none` here. -/
namespace Haruspex.FsTools
open Pages
open Rust (fromUtf8 byteLen)
set_option autoImplicit false

/-! ## Slices -/

/-- `str::lines` -/
def lines : List Char → List (List Char)
  | [] => []
  | c :: cs =>
    if c = '\n' then [] :: lines cs
    else if c = '\r' ∧ cs.head? = some '\n' then lines cs
    else
      match lines cs with
      | [] => [[c]]
      | line :: rest => (c :: line) :: rest

/-- `&list[start..end]` -/
def slice {α : Type} (list : List α) (start stop : ℕ) : Option (List α) :=
  if start ≤ stop ∧ stop ≤ list.length then some ((list.take stop).drop start) else none

/-- `usize::saturating_add` -/
def saturatingAdd (a b : ℕ) : ℕ := min (a + b) (2 ^ 64 - 1)

/-- `str::is_char_boundary` -/
def isCharBoundary : List Char → ℕ → Bool
  | _, 0 => true
  | [], _ + 1 => false
  | c :: cs, n + 1 => c.utf8Size ≤ n + 1 && isCharBoundary cs (n + 1 - c.utf8Size)

def takeBytes : List Char → ℕ → List Char
  | [], _ => []
  | c :: cs, n => if c.utf8Size ≤ n then c :: takeBytes cs (n - c.utf8Size) else []

/-- `String::truncate` -/
def truncate (cs : List Char) (len : ℕ) : Option (List Char) :=
  if byteLen cs < len then some cs else if isCharBoundary cs len then some (takeBytes cs len) else none

/-- The last boundary at or below a place. -/
def boundaryBelow (cs : List Char) : ℕ → ℕ
  | 0 => 0
  | cut + 1 => if isCharBoundary cs (cut + 1) then cut + 1 else boundaryBelow cs cut

/-! ## Windows -/

/-- `DEFAULT_READ_LINES` -/
def defaultReadLines : ℕ := 2000

/-- `MAX_READ_OUTPUT_BYTES` -/
def maxReadOutputBytes : ℕ := 256 * 1024

def join (window : List (List Char)) : List Char := ['\n'].intercalate window

def truncatedNote : String :=
  s!"\n… (output truncated at {maxReadOutputBytes / 1024} KB — narrow the range with offset/limit)"

def moreNote (more : ℕ) : String :=
  let plural := if more = 1 then "" else "s"
  s!"\n… (truncated; {more} more line{plural} — use offset/limit to read further)"

/-- A window as it is returned: cut at the byte budget, else with what follows it. -/
def windowText (total stop : ℕ) (out : List Char) : Option String :=
  if maxReadOutputBytes < byteLen out then
    (truncate out (boundaryBelow out maxReadOutputBytes)).map (fun out => String.ofList out ++ truncatedNote)
  else if stop < total then some (String.ofList out ++ moreNote (total - stop))
  else some (String.ofList out)

/-- `utf8Error` is the text of the error that `String::from_utf8` gives. -/
def renderTextRead (utf8Error : List UInt8 → String) (bytes : List UInt8) (offset limit : Option UInt32)
    (binaryMsg : String) : Option (Except String String) :=
  if 0 ∈ bytes.take 8192 then some (.error binaryMsg)
  else
    match fromUtf8 bytes with
    | none => some (.error s!"File is not valid UTF-8: {utf8Error bytes}")
    | some content => do
      let lines := lines content.toList
      let total := lines.length
      let start := (offset.map (fun o => max o.toNat 1 - 1)).getD 0
      if 0 < total ∧ total ≤ start then
        some (.error s!"offset {start + 1} is past the end of the file ({total} lines).")
      else
        let count := (limit.map (fun l => max l.toNat 1)).getD defaultReadLines
        let stop := min (saturatingAdd start count) total
        let window ← slice lines start stop
        let text ← windowText total stop (join window)
        some (.ok text)

/-! ## Lines -/

theorem lines_eq_nil_iff (cs : List Char) : lines cs = [] ↔ cs = [] := by
  induction cs with
  | nil => simp [lines]
  | cons c cs ih =>
    simp only [lines, reduceCtorEq, iff_false]
    split
    · simp
    · split
      · rename_i hcr
        intro h
        rw [ih] at h
        rw [h] at hcr
        simp at hcr
      · split <;> simp

/-- No line has a line feed. -/
theorem not_mem_lines {cs line : List Char} (h : line ∈ lines cs) : '\n' ∉ line := by
  induction cs generalizing line with
  | nil => cases h
  | cons c cs ih =>
    unfold lines at h
    split at h
    · obtain rfl | h := List.mem_cons.mp h
      · exact List.not_mem_nil
      · exact ih h
    · rename_i hc
      split at h
      · exact ih h
      · cases hlines : lines cs with
        | nil =>
          rw [hlines] at h
          obtain rfl := List.mem_singleton.mp h
          simpa using fun heq => hc heq.symm
        | cons first rest =>
          rw [hlines] at h
          obtain rfl | h := List.mem_cons.mp h
          · have hfirst := @ih first (by rw [hlines]; exact List.mem_cons_self)
            simp only [List.mem_cons, not_or]
            exact ⟨fun heq => hc heq.symm, hfirst⟩
          · exact ih (by rw [hlines]; exact List.mem_cons_of_mem first h)

theorem utf8Chunks_eq_nil {bytes : List UInt8} (h : Rust.utf8Chunks bytes = []) : bytes = [] := by
  cases bytes with
  | nil => rfl
  | cons b rest =>
    rw [Rust.utf8Chunks.eq_def] at h
    -- every branch gives something for the first byte
    repeat' split at h
    all_goals contradiction

/-! ## Boundaries -/

theorem isCharBoundary_boundaryBelow (cs : List Char) (cut : ℕ) :
    isCharBoundary cs (boundaryBelow cs cut) = true := by
  induction cut with
  | zero => cases cs <;> rfl
  | succ cut ih =>
    unfold boundaryBelow
    split
    · assumption
    · exact ih

/-- The budget never cuts through a character. -/
theorem isSome_windowText (total stop : ℕ) (out : List Char) : (windowText total stop out).isSome = true := by
  unfold windowText
  split
  · unfold truncate
    rw [Option.isSome_map, isCharBoundary_boundaryBelow]
    split <;> rfl
  · split <;> rfl

theorem slice_eq_some {α : Type} {list : List α} {start stop : ℕ} (h : start ≤ stop) (h' : stop ≤ list.length) :
    slice list start stop = some ((list.drop start).take (stop - start)) := by
  rw [slice, if_pos ⟨h, h'⟩, List.drop_take]

/-! ## Pages -/

/-- What a window is returned as, within the byte budget. -/
def pageText (k : ℕ) (lines : List (List Char)) (i : ℕ) : String :=
  String.ofList (join (page k lines i)) ++
    if (i + 1) * k < lines.length then moreNote (lines.length - (i + 1) * k) else ""

/-- A page's text at its line feeds is the page again. -/
theorem splitOn_join_page {k i : ℕ} (hk : 0 < k) {cs : List Char} (hi : i * k < (lines cs).length) :
    (join (page k (lines cs) i)).splitOn '\n' = page k (lines cs) i := by
  refine List.splitOn_intercalate '\n' ?_ ?_
  · intro line hline
    exact not_mem_lines (mem_of_mem_page hline)
  · intro hempty
    have hlen := congrArg List.length hempty
    rw [length_page, List.length_nil] at hlen
    omega

theorem windowText_page {k i : ℕ} {lines : List (List Char)}
    (hbudget : byteLen (join (page k lines i)) ≤ maxReadOutputBytes) :
    windowText lines.length (min ((i + 1) * k) lines.length) (join (page k lines i)) = some (pageText k lines i) := by
  unfold windowText pageText
  rw [if_neg (by omega)]
  by_cases hmore : (i + 1) * k < lines.length
  · have hmin : min ((i + 1) * k) lines.length = (i + 1) * k := by omega
    rw [hmin, if_pos hmore, if_pos hmore]
  · have hmin : min ((i + 1) * k) lines.length = lines.length := by omega
    rw [hmin, if_neg (Nat.lt_irrefl _), if_neg hmore, String.append_empty]

section renderTextRead
variable (utf8Error : List UInt8 → String) {bytes : List UInt8} {content binaryMsg : String}

/-- A read of a text that is there, from a line that is. -/
theorem renderTextRead_page (hcontent : fromUtf8 bytes = some content) (hnul : 0 ∉ bytes.take 8192)
    {k o : UInt32} (hk : 0 < k) {i : ℕ} (hi : i * k.toNat < (lines content.toList).length)
    (ho : o.toNat = 1 + i * k.toNat)
    (hbudget : byteLen (join (page k.toNat (lines content.toList) i)) ≤ maxReadOutputBytes) :
    renderTextRead utf8Error bytes (some o) (some k) binaryMsg =
      some (.ok (pageText k.toNat (lines content.toList) i)) := by
  have hpos : 0 < k.toNat := UInt32.lt_iff_toNat_lt.mp hk
  have hstart : max o.toNat 1 - 1 = i * k.toNat := by omega
  have hcount : max k.toNat 1 = k.toNat := by omega
  have hlt := o.toNat_lt
  have hklt := k.toNat_lt
  have hsat : saturatingAdd (i * k.toNat) k.toNat = (i + 1) * k.toNat := by
    rw [saturatingAdd, Nat.succ_mul]
    omega
  have hslice : slice (lines content.toList) (i * k.toNat)
      (min ((i + 1) * k.toNat) (lines content.toList).length) = some (page k.toNat (lines content.toList) i) := by
    have hsucc : (i + 1) * k.toNat = i * k.toNat + k.toNat := Nat.succ_mul _ _
    rw [slice_eq_some (by omega) (by omega), page]
    congr 1
    obtain hle | hle := Nat.le_total ((i + 1) * k.toNat) (lines content.toList).length
    · rw [Nat.min_eq_left hle, hsucc, Nat.add_sub_cancel_left]
    · rw [Nat.min_eq_right hle, List.take_of_length_le (Nat.le_of_eq List.length_drop),
        List.take_of_length_le (by rw [List.length_drop]; omega)]
  unfold renderTextRead
  rw [if_neg hnul, hcontent]
  simp only [Option.map_some, Option.getD_some, hstart, hcount, hsat]
  rw [if_neg (by omega), hslice]
  simp only [Option.bind_eq_bind, Option.bind_some, windowText_page hbudget]

theorem fromUtf8_eq_empty (h : fromUtf8 bytes = some content) : content.toList = [] ↔ bytes = [] := by
  constructor
  · intro hempty
    unfold fromUtf8 at h
    obtain ⟨cs, hcs, rfl⟩ := Option.map_eq_some_iff.mp h
    rw [String.toList_ofList] at hempty
    rw [hempty] at hcs
    refine utf8Chunks_eq_nil ?_
    cases hchunks : Rust.utf8Chunks bytes with
    | nil => rfl
    | cons chunk chunks =>
      rw [hchunks, List.mapM_cons] at hcs
      cases chunk with
      | none => cases hcs
      | some c =>
        cases hrest : chunks.mapM id with
        | none => simp [hrest] at hcs
        | some rest => simp [hrest] at hcs
  · intro hbytes
    rw [hbytes] at h
    cases h
    rfl

/-- A read panics on an empty file only. -/
theorem isSome_renderTextRead_iff (offset limit : Option UInt32) :
    (renderTextRead utf8Error bytes offset limit binaryMsg).isSome = true ↔
      bytes ≠ [] ∨ ∀ o ∈ offset, o ≤ 1 := by
  have hone : (∀ o ∈ offset, o ≤ 1) ↔ (offset.map (fun o => max o.toNat 1 - 1)).getD 0 = 0 := by
    cases offset with
    | none => simp
    | some o =>
      simp only [Option.mem_some_iff, forall_eq', Option.map_some, Option.getD_some, UInt32.le_iff_toNat_le]
      have hnat : (1 : UInt32).toNat = 1 := rfl
      omega
  have hlt : (offset.map (fun o => max o.toNat 1 - 1)).getD 0 < 2 ^ 32 := by
    cases offset with
    | none => exact Nat.two_pow_pos 32
    | some o =>
      have holt := o.toNat_lt
      simp only [Option.map_some, Option.getD_some]
      omega
  rw [hone]
  unfold renderTextRead
  generalize (offset.map (fun o => max o.toNat 1 - 1)).getD 0 = start at hlt
  generalize (limit.map (fun l => max l.toNat 1)).getD defaultReadLines = count
  by_cases hnul : 0 ∈ bytes.take 8192
  · rw [if_pos hnul]
    refine iff_of_true rfl (.inl fun hempty => ?_)
    rw [hempty] at hnul
    simp at hnul
  · rw [if_neg hnul]
    cases hcontent : fromUtf8 bytes with
    | none =>
      refine iff_of_true rfl (.inl fun hempty => ?_)
      rw [hempty] at hcontent
      cases hcontent
    | some content =>
      have hlines : (lines content.toList).length = 0 ↔ bytes = [] := by
        rw [List.length_eq_zero_iff, lines_eq_nil_iff, fromUtf8_eq_empty hcontent]
      dsimp only
      generalize lines content.toList = L at hlines
      by_cases hpast : 0 < L.length ∧ L.length ≤ start
      · rw [if_pos hpast]
        refine iff_of_true rfl (.inl fun hempty => ?_)
        have hzero := hlines.mpr hempty
        omega
      · rw [if_neg hpast]
        have hle : min (saturatingAdd start count) L.length ≤ L.length := Nat.min_le_right _ _
        by_cases hstart : start ≤ min (saturatingAdd start count) L.length
        · rw [slice_eq_some hstart hle]
          refine iff_of_true ?_ ?_
          · obtain ⟨text, htext⟩ := Option.isSome_iff_exists.mp (isSome_windowText L.length
              (min (saturatingAdd start count) L.length)
              (join ((L.drop start).take (min (saturatingAdd start count) L.length - start))))
            simp only [Option.bind_eq_bind, Option.bind_some, htext, Option.isSome_some]
          · by_cases hbytes : bytes = []
            · have hzero := hlines.mpr hbytes
              right
              omega
            · exact .inl hbytes
        · have hslice : slice L start (min (saturatingAdd start count) L.length) = none := by
            rw [slice, if_neg (fun h => hstart h.1)]
          rw [hslice]
          refine iff_of_false (by simp) ?_
          -- the start is past the end, and no line is there
          have hsat : start ≤ saturatingAdd start count := by
            unfold saturatingAdd
            omega
          have hzero : L.length = 0 := by omega
          intro h
          obtain hbytes | hstart' := h
          · exact hbytes (hlines.mp hzero)
          · omega

end renderTextRead

/-! ## What holds of every read -/

/-- Reads panic exactly past the first line of an empty file, and page through every text. -/
theorem renderTextRead_reads (utf8Error : List UInt8 → String) (binaryMsg : String) :
    (∀ (bytes : List UInt8) (offset limit : Option UInt32),
      (∃ result, renderTextRead utf8Error bytes offset limit binaryMsg = some result) ↔
        bytes ≠ [] ∨ ∀ o ∈ offset, o ≤ 1) ∧
    ∀ (bytes : List UInt8) (content : String) (k : UInt32), fromUtf8 bytes = some content →
      0 ∉ bytes.take 8192 → 0 < k →
      (∀ i, byteLen (join (page k.toNat (lines content.toList) i)) ≤ maxReadOutputBytes) →
      (∀ i, i * k.toNat < (lines content.toList).length → ∀ o : UInt32, o.toNat = 1 + i * k.toNat →
        renderTextRead utf8Error bytes (some o) (some k) binaryMsg =
          some (.ok (pageText k.toNat (lines content.toList) i)) ∧
        (join (page k.toNat (lines content.toList) i)).splitOn '\n' = page k.toNat (lines content.toList) i) ∧
      ∀ n, (lines content.toList).length ≤ n * k.toNat →
        ((List.range n).map (page k.toNat (lines content.toList))).flatten = lines content.toList := by
  constructor
  · intro bytes offset limit
    rw [← Option.isSome_iff_exists]
    exact isSome_renderTextRead_iff utf8Error offset limit
  · intro bytes content k hcontent hnul hk hbudget
    constructor
    · intro i hi o ho
      exact ⟨renderTextRead_page utf8Error hcontent hnul hk hi ho (hbudget i),
        splitOn_join_page (UInt32.lt_iff_toNat_lt.mp hk) hi⟩
    · intro n hn
      rw [flatten_pages, List.take_of_length_le hn]

/-- The second line of an empty file. -/
theorem renderTextRead_panics :
    ¬ ∀ (utf8Error : List UInt8 → String) (bytes : List UInt8) (offset limit : Option UInt32) (binaryMsg : String),
      ∃ result, renderTextRead utf8Error bytes offset limit binaryMsg = some result := by
  intro h
  obtain ⟨result, hresult⟩ := h (fun _ => "") [] (some 2) none "binary"
  have hnone : renderTextRead (fun _ => "") [] (some 2) none "binary" = none := by decide +kernel
  rw [hnone] at hresult
  cases hresult

/-- Three lines, two at a time. -/
theorem renderTextRead_reads_three :
    renderTextRead (fun _ => "") [97, 10, 98, 13, 10, 99] (some 3) (some 2) "binary" = some (.ok "c") := by
  have hcontent : fromUtf8 [97, 10, 98, 13, 10, 99] = some "a\nb\r\nc" := by decide +kernel
  have hlines : lines "a\nb\r\nc".toList = [['a'], ['b'], ['c']] := by decide +kernel
  have hpages := (renderTextRead_reads (fun _ => "") "binary").2 [97, 10, 98, 13, 10, 99] "a\nb\r\nc" 2 hcontent
    (by decide) (by decide)
  rw [hlines] at hpages
  have hbudget : ∀ i, byteLen (join (page (2 : UInt32).toNat [['a'], ['b'], ['c']] i)) ≤ maxReadOutputBytes := by
    intro i
    match i with
    | 0 => decide +kernel
    | 1 => decide +kernel
    | i + 2 =>
      have hdrop : [['a'], ['b'], ['c']].drop ((i + 2) * (2 : UInt32).toNat) = [] := by
        refine List.drop_of_length_le ?_
        change 3 ≤ (i + 2) * 2
        omega
      rw [page, hdrop]
      decide
  exact ((hpages hbudget).1 1 (by decide) 3 (by decide)).1

end Haruspex.FsTools
