import Haruspex.Vcard.Contact
import Mathlib.Data.List.TakeWhile

/-! Which slices of a card are cut at boundaries of its characters. -/
namespace Haruspex.Vcard
open FsTools (isCharBoundary takeBytes)
open LineEndings (joinCrlf)
open Rust (trim byteLen byteLen_append)
set_option autoImplicit false

variable {a b c cs value : List Char}

/-! ## Boundaries -/

theorem byteLen_cons (x : Char) (cs : List Char) : byteLen (x :: cs) = x.utf8Size + byteLen cs := by
  simp [byteLen]

theorem isCharBoundary_zero (cs : List Char) : isCharBoundary cs 0 = true := by
  cases cs <;> rfl

theorem isCharBoundary_cons (x : Char) (cs : List Char) (n : ℕ) :
    isCharBoundary (x :: cs) (x.utf8Size + n) = isCharBoundary cs n := by
  obtain ⟨m, hm⟩ : ∃ m, x.utf8Size + n = m + 1 := ⟨x.utf8Size + n - 1, by have := x.utf8Size_pos; omega⟩
  rw [hm, isCharBoundary]
  have hle : x.utf8Size ≤ m + 1 := by omega
  have hrest : m + 1 - x.utf8Size = n := by omega
  simp [hle, hrest]

theorem isCharBoundary_append (a b : List Char) (n : ℕ) :
    isCharBoundary (a ++ b) (byteLen a + n) = isCharBoundary b n := by
  induction a with
  | nil => simp [byteLen]
  | cons x a ih => rw [List.cons_append, byteLen_cons, Nat.add_assoc, isCharBoundary_cons, ih]

theorem dropBytes_cons (x : Char) (cs : List Char) (n : ℕ) :
    dropBytes (x :: cs) (x.utf8Size + n) = dropBytes cs n := by
  obtain ⟨m, hm⟩ : ∃ m, x.utf8Size + n = m + 1 := ⟨x.utf8Size + n - 1, by have := x.utf8Size_pos; omega⟩
  rw [hm, dropBytes]
  have hrest : m + 1 - x.utf8Size = n := by omega
  rw [hrest]

theorem dropBytes_append (a b : List Char) : dropBytes (a ++ b) (byteLen a) = b := by
  induction a with
  | nil => cases b <;> rfl
  | cons x a ih => rw [List.cons_append, byteLen_cons, dropBytes_cons, ih]

theorem takeBytes_append (a b : List Char) : takeBytes (a ++ b) (byteLen a) = a := by
  induction a with
  | nil =>
    cases b with
    | nil => rfl
    | cons x b =>
      have hpos := x.utf8Size_pos
      simp [takeBytes, byteLen]
      omega
  | cons x a ih =>
    rw [List.cons_append, byteLen_cons, takeBytes, if_pos (by omega), Nat.add_sub_cancel_left, ih]

/-- A slice from one boundary to another. -/
theorem sliceStr_eq (a b c : List Char) :
    sliceStr (a ++ (b ++ c)) (byteLen a) (byteLen a + byteLen b) = some b := by
  have hstart : isCharBoundary (a ++ (b ++ c)) (byteLen a) = true := by
    have h := isCharBoundary_append a (b ++ c) 0
    rwa [Nat.add_zero, isCharBoundary_zero] at h
  have hstop : isCharBoundary (a ++ (b ++ c)) (byteLen a + byteLen b) = true := by
    have h := isCharBoundary_append b c 0
    rw [Nat.add_zero, isCharBoundary_zero] at h
    rw [isCharBoundary_append, h]
  rw [sliceStr, if_pos ⟨Nat.le_add_right _ _, hstart, hstop⟩, dropBytes_append, Nat.add_sub_cancel_left,
    takeBytes_append]

theorem sliceStr_front (b c : List Char) : sliceStr (b ++ c) 0 (byteLen b) = some b := by
  have h := sliceStr_eq [] b c
  rwa [List.nil_append, show byteLen [] = 0 from rfl, Nat.zero_add] at h

theorem sliceStr_back (a b : List Char) : sliceStr (a ++ b) (byteLen a) (byteLen (a ++ b)) = some b := by
  have h := sliceStr_eq a b []
  rwa [List.append_nil, ← byteLen_append] at h

theorem onLast_snoc (out : List (List Char)) (last : List Char) (change : List Char → List Char) :
    onLast (out ++ [last]) change = some (out ++ [change last]) := by
  simp [onLast]

theorem snoc_of_ne_nil {α : Type} {l : List α} (h : l ≠ []) : ∃ front last, l = front ++ [last] :=
  ⟨l.dropLast, l.getLast h, (List.dropLast_append_getLast h).symm⟩

/-! ## Joining lines -/

/-- A line whose name or parameters have the word for quoted-printable in them. -/
def quoted (line : List Char) : Bool :=
  decide ("QUOTED-PRINTABLE".toList <:+: upper (line.takeWhile (· ≠ ':')))

theorem takeWhile_append_colon {line : List Char} (h : ':' ∈ line) :
    ∃ rest, line = line.takeWhile (· ≠ ':') ++ ':' :: rest := by
  obtain ⟨head, rest, rfl, hhead⟩ := List.eq_append_cons_of_mem h
  refine ⟨rest, ?_⟩
  have hplain : ∀ c ∈ head, decide (c ≠ ':') = true := by
    intro c hc
    exact decide_eq_true fun heq => hhead (heq ▸ hc)
  rw [List.takeWhile_append_of_pos hplain, List.takeWhile_cons_of_neg (by simp), List.append_nil]

theorem looksQuotedPrintable_eq (line : List Char) : looksQuotedPrintable line = some (quoted line) := by
  unfold looksQuotedPrintable findColon quoted
  by_cases h : ':' ∈ line
  · obtain ⟨rest, hline⟩ := takeWhile_append_colon h
    have hslice : sliceStr line 0 (byteLen (line.takeWhile (· ≠ ':'))) = some (line.takeWhile (· ≠ ':')) := by
      have hfront := sliceStr_front (line.takeWhile (· ≠ ':')) (':' :: rest)
      rwa [← hline] at hfront
    simp only [if_pos h]
    rw [hslice]
    rfl
  · have hall : line.takeWhile (· ≠ ':') = line := by
      rw [List.takeWhile_eq_self_iff]
      intro c hc
      exact decide_eq_true fun heq => h (heq ▸ hc)
    simp only [if_neg h]
    rw [hall]
    rfl

def blank (c : Char) : Bool := c = ' ' ∨ c = '\t'

/-- How a line is joined to those before it. -/
def joinStep (out : List (List Char)) (raw : List Char) : List (List Char) :=
  match out.getLast? with
  | some prev =>
    if (raw.head?.any blank) = true then out.dropLast ++ [prev ++ raw.tail]
    else if prev.getLast? = some '=' ∧ quoted prev = true then out.dropLast ++ [prev.dropLast ++ raw]
    else if trim raw = [] then out
    else out ++ [raw]
  | none => if trim raw = [] then [] else [raw]

theorem head_blank (raw : List Char) :
    (raw.head? = some ' ' ∨ raw.head? = some '\t') ↔ raw.head?.any blank = true := by
  cases raw <;> simp [blank]

/-- A line that starts with a blank is sliced after it. -/
theorem slice_blank {raw : List Char} (h : raw.head?.any blank = true) :
    sliceStr raw 1 (byteLen raw) = some raw.tail := by
  cases raw with
  | nil => cases h
  | cons c rest =>
    have hback := sliceStr_back [c] rest
    have hsize : byteLen [c] = 1 := by
      rw [List.head?_cons, Option.any_some, blank, decide_eq_true_iff] at h
      rcases h with rfl | rfl <;> rfl
    rwa [hsize] at hback

theorem continuesQp_snoc (front : List (List Char)) (prev : List Char) :
    continuesQp (front ++ [prev]) = some (decide (prev.getLast? = some '=' ∧ quoted prev = true)) := by
  unfold continuesQp
  rw [List.getLast?_concat]
  dsimp only
  rw [looksQuotedPrintable_eq]
  split <;> simp_all

theorem unfoldStep_eq (out : List (List Char)) (raw : List Char) :
    unfoldStep out raw = some (joinStep out raw) := by
  by_cases hout : out = []
  · subst hout
    by_cases htrim : trim raw = [] <;> simp [unfoldStep, continuesQp, joinStep, htrim]
  · obtain ⟨front, prev, rfl⟩ := snoc_of_ne_nil hout
    unfold unfoldStep joinStep
    simp only [List.getLast?_concat, onLast_snoc, List.dropLast_concat, head_blank]
    rw [continuesQp_snoc, Option.bind_eq_bind, Option.bind_some]
    by_cases hblank : raw.head?.any blank = true
    · rw [if_pos ⟨hblank, hout⟩, if_pos hblank, slice_blank hblank]
      rfl
    · rw [if_neg (fun h => hblank h.1), if_neg hblank]
      by_cases hjoin : prev.getLast? = some '=' ∧ quoted prev = true
      · rw [if_pos hjoin, if_pos ⟨decide_eq_true hjoin, hout⟩]
      · rw [if_neg hjoin, if_neg fun h => hjoin (of_decide_eq_true h.1)]
        split <;> rfl

theorem unfold_eq (card : List Char) :
    unfold card = some (((joinCrlf card).splitOn '\n').foldl joinStep []) := by
  unfold unfold
  generalize (joinCrlf card).splitOn '\n' = raws
  generalize ([] : List (List Char)) = out
  induction raws generalizing out with
  | nil => rfl
  | cons raw raws ih =>
    rw [List.foldlM_cons, unfoldStep_eq, Option.bind_eq_bind, Option.bind_some, ih, List.foldl_cons]

/-! ## Splitting a line -/

/-- The text before the first colon outside quotes, and after it. -/
def cutAt (inQuotes : Bool) : List Char → Option (List Char × List Char)
  | [] => none
  | c :: cs =>
    if c = '"' then (cutAt (!inQuotes) cs).map fun r => (c :: r.1, r.2)
    else if c = ':' ∧ inQuotes = false then some ([], cs)
    else (cutAt inQuotes cs).map fun r => (c :: r.1, r.2)

theorem splitLoop_eq (before cs : List Char) (inQuotes : Bool) :
    splitLoop (before ++ cs) cs (byteLen before) inQuotes =
      some ((cutAt inQuotes cs).map fun r => (before ++ r.1, r.2)) := by
  induction cs generalizing before inQuotes with
  | nil => rfl
  | cons c cs ih =>
    have hnext : byteLen before + c.utf8Size = byteLen (before ++ [c]) := by
      simp [byteLen]
    have hwhole : before ++ c :: cs = before ++ [c] ++ cs := by simp
    unfold splitLoop cutAt
    by_cases hquote : c = '"'
    · rw [if_pos hquote, if_pos hquote, hnext, hwhole, ih]
      simp [Function.comp_def]
    · rw [if_neg hquote, if_neg hquote]
      by_cases hcolon : c = ':' ∧ inQuotes = false
      · obtain ⟨rfl, rfl⟩ := hcolon
        have hhead : sliceStr (before ++ ':' :: cs) 0 (byteLen before) = some before := sliceStr_front _ _
        have hvalue : sliceStr (before ++ ':' :: cs) (byteLen before + 1) (byteLen (before ++ ':' :: cs)) =
            some cs := by
          have hback := sliceStr_back (before ++ [':']) cs
          rwa [← hwhole, ← hnext] at hback
        simp [hhead, hvalue]
      · rw [if_neg hcolon, if_neg hcolon, hnext, hwhole, ih]
        simp [Function.comp_def]

theorem splitAtValue_eq (line : List Char) : splitAtValue line = some (cutAt false line) := by
  have h := splitLoop_eq [] line false
  rw [List.nil_append, show byteLen [] = 0 from rfl] at h
  rw [splitAtValue, h]
  simp

/-- The parts of a text at each `;` outside quotes, the first of them apart. -/
def paramParts (inQuotes : Bool) : List Char → List Char × List (List Char)
  | [] => ([], [])
  | c :: cs =>
    if c = '"' then (c :: (paramParts (!inQuotes) cs).1, (paramParts (!inQuotes) cs).2)
    else if c = ';' ∧ inQuotes = false then
      ([], (paramParts inQuotes cs).1 :: (paramParts inQuotes cs).2)
    else (c :: (paramParts inQuotes cs).1, (paramParts inQuotes cs).2)

theorem paramLoop_eq (cs : List Char) (out : List (List Char)) (last : List Char) (inQuotes : Bool) :
    paramLoop cs (out ++ [last]) inQuotes =
      some (out ++ (last ++ (paramParts inQuotes cs).1) :: (paramParts inQuotes cs).2) := by
  induction cs generalizing out last inQuotes with
  | nil => simp [paramLoop, paramParts]
  | cons c cs ih =>
    unfold paramLoop paramParts
    by_cases hquote : c = '"'
    · rw [if_pos hquote, if_pos hquote, onLast_snoc, Option.bind_some, ih]
      simp
    · rw [if_neg hquote, if_neg hquote]
      by_cases hsep : c = ';' ∧ inQuotes = false
      · rw [if_pos hsep, if_pos hsep, ih]
        simp
      · rw [if_neg hsep, if_neg hsep, onLast_snoc, Option.bind_some, ih]
        simp

theorem splitParams_eq (head : List Char) :
    splitParams head = some ((paramParts false head).1 :: (paramParts false head).2) := by
  have h := paramLoop_eq head [] [] false
  rwa [List.nil_append, List.nil_append, List.nil_append] at h

/-- A line as it is read: its name, its parameters, its value. -/
def lineOf (line : List Char) : Option Line :=
  (cutAt false line).bind fun r =>
    if trim (paramParts false r.1).1 = [] then none
    else
      some {
        name := withoutGroup (trim (paramParts false r.1).1)
        params := ((paramParts false r.1).2.filter fun p => trim p ≠ []).map parseParam
        value := r.2 }

theorem parseLine_eq (line : List Char) : parseLine line = some (lineOf line) := by
  unfold parseLine lineOf
  rw [splitAtValue_eq, Option.bind_eq_bind, Option.bind_some]
  cases cutAt false line with
  | none => rfl
  | some r =>
    obtain ⟨head, value⟩ := r
    dsimp only [Option.bind_some]
    rw [splitParams_eq, Option.bind_eq_bind, Option.bind_some]
    dsimp only
    split <;> rfl

/-- The lines of a card, as they are read. -/
def linesOf (card : List Char) : List Line :=
  (((joinCrlf card).splitOn '\n').foldl joinStep []).filterMap lineOf

theorem mapM_some {α β : Type} {f : α → Option β} {g : α → β} (h : ∀ x, f x = some (g x)) (xs : List α) :
    xs.mapM f = some (xs.map g) := by
  induction xs with
  | nil => rfl
  | cons x xs ih => simp [h, ih]

theorem readLines_eq (card : List Char) : readLines card = some (linesOf card) := by
  unfold readLines linesOf
  rw [unfold_eq, Option.bind_eq_bind, Option.bind_some, mapM_some parseLine_eq]
  simp [List.filterMap_map]

end Haruspex.Vcard
