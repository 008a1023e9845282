import Haruspex.Library.Runs
import Mathlib.Data.List.Infix

/-! Background commands (`code_tools/background.rs`): the log of one, and how one in a distro is stopped
(`GroupState` of `code_tools/wsl.rs`). -/
namespace Haruspex.Background
open Runs
set_option autoImplicit false

/-! ## The log -/

variable {B : Type}

/-- `LogSink`, where the disk does as it is told; `trims` is how often the front was cut off. -/
structure LogSink (B : Type) where
  file : List B
  len : ℕ
  cap : ℕ
  trims : ℕ

def readTailBytes (file : List B) (bytes : ℕ) : List B := file.drop (file.length - bytes)

namespace LogSink

def new (cap : ℕ) : LogSink B := ⟨[], 0, cap, 0⟩

/-- Four fifths of the cap. -/
def keep (cap : ℕ) : ℕ := cap * 4 / 5

def truncateFront (s : LogSink B) : LogSink B :=
  let tail := readTailBytes s.file (keep s.cap)
  { s with file := tail, len := tail.length, trims := s.trims + 1 }

def write (s : LogSink B) (chunk : List B) : LogSink B :=
  let s := { s with file := s.file ++ chunk, len := s.len + chunk.length }
  if s.len > s.cap then s.truncateFront else s

end LogSink

theorem readTailBytes_suffix (file : List B) (bytes : ℕ) : readTailBytes file bytes <:+ file := List.drop_suffix _ _

theorem length_readTailBytes (file : List B) (bytes : ℕ) : (readTailBytes file bytes).length = min bytes file.length := by
  unfold readTailBytes
  rw [List.length_drop]
  omega

/-- The newest bytes of a text are those of its end. -/
theorem readTailBytes_of_suffix {file whole : List B} (h : file <:+ whole) {bytes : ℕ} (hbytes : bytes ≤ file.length) :
    readTailBytes file bytes = readTailBytes whole bytes := by
  obtain ⟨front, rfl⟩ := h
  unfold readTailBytes
  rw [List.length_append]
  have hdrop : front.length + file.length - bytes = front.length + (file.length - bytes) := by omega
  rw [hdrop, List.drop_append]
  simp

/-- What holds of the log after `written`. -/
structure Kept (cap : ℕ) (written : List B) (s : LogSink B) : Prop where
  capped : s.cap = cap
  len : s.len = s.file.length
  newest : s.file <:+ written
  short : s.file.length ≤ cap
  long : min written.length (LogSink.keep cap) ≤ s.file.length
  seldom : s.trims * (cap - LogSink.keep cap) + (s.file.length - LogSink.keep cap) ≤ written.length

theorem keep_le (cap : ℕ) : LogSink.keep cap ≤ cap := by
  unfold LogSink.keep
  omega

theorem Kept.write {cap : ℕ} {written : List B} {s : LogSink B} (h : Kept cap written s) (chunk : List B) :
    Kept cap (written ++ chunk) (s.write chunk) := by
  have hkeep := keep_le cap
  obtain ⟨front, hfront⟩ := h.newest
  have hnewest : s.file ++ chunk <:+ written ++ chunk := ⟨front, by rw [← List.append_assoc, hfront]⟩
  have hlength : (s.file ++ chunk).length = s.file.length + chunk.length := List.length_append
  have hwritten : (written ++ chunk).length = written.length + chunk.length := List.length_append
  have hshort := h.short
  have hlong := h.long
  have hseldom := h.seldom
  unfold LogSink.write
  dsimp only
  rw [h.len, h.capped]
  split
  · rename_i hmore
    unfold LogSink.truncateFront
    dsimp only
    have htail := length_readTailBytes (s.file ++ chunk) (LogSink.keep cap)
    refine ⟨rfl, rfl, (readTailBytes_suffix _ _).trans hnewest, ?_, ?_, ?_⟩
    · rw [htail]
      omega
    · rw [htail]
      omega
    · rw [htail, hwritten, Nat.succ_mul]
      omega
  · rename_i hfits
    refine ⟨rfl, by rw [hlength], hnewest, ?_, ?_, ?_⟩
    · rw [hlength]
      omega
    · rw [hlength, hwritten]
      omega
    · rw [hwritten]
      change s.trims * (cap - LogSink.keep cap) + ((s.file ++ chunk).length - LogSink.keep cap) ≤ _
      rw [hlength]
      omega

theorem Kept.writes {cap : ℕ} (chunks : List (List B)) {written : List B} {s : LogSink B} (h : Kept cap written s) :
    Kept cap (written ++ chunks.flatten) (chunks.foldl LogSink.write s) := by
  induction chunks generalizing written s with
  | nil => rwa [List.flatten_nil, List.append_nil]
  | cons chunk chunks ih =>
    rw [List.flatten_cons, ← List.append_assoc]
    exact ih (h.write chunk)

/-- The log once `chunks` are written, one after another. -/
def logOf (cap : ℕ) (chunks : List (List B)) : LogSink B := chunks.foldl LogSink.write (LogSink.new cap)

theorem logOf_kept (cap : ℕ) (chunks : List (List B)) : Kept cap chunks.flatten (logOf cap chunks) := by
  have hstart : Kept cap ([] : List B) (LogSink.new cap) :=
    ⟨rfl, rfl, List.suffix_refl _, Nat.zero_le _, by simp, by simp [LogSink.new]⟩
  exact hstart.writes chunks

/-- However its output comes, a command's log is the end of all it wrote and never longer than the cap; it holds at least the
newest four fifths of the cap, which `tail` reads from it; and its front is cut off at most once for each fifth written. -/
theorem log_keeps_newest (cap : ℕ) (chunks : List (List B)) :
    (logOf cap chunks).file <:+ chunks.flatten ∧ (logOf cap chunks).file.length ≤ cap ∧
      (logOf cap chunks).len = (logOf cap chunks).file.length ∧
      (∀ bytes ≤ LogSink.keep cap, readTailBytes (logOf cap chunks).file bytes = readTailBytes chunks.flatten bytes) ∧
      (logOf cap chunks).trims * (cap - LogSink.keep cap) ≤ chunks.flatten.length := by
  have h := logOf_kept cap chunks
  have hlong := h.long
  refine ⟨h.newest, h.short, h.len, fun bytes hbytes => ?_, Nat.le_trans (Nat.le_add_right _ _) h.seldom⟩
  by_cases hall : chunks.flatten.length ≤ LogSink.keep cap
  · rw [Nat.min_eq_left hall] at hlong
    rw [h.newest.eq_of_length_le hlong]
  · exact readTailBytes_of_suffix h.newest (by omega)

/-! ## Stopping a command in a distro -/

/-- Where `pump_wsl_stderr` is: before the group's line, and then between each of its accesses to what is shared. -/
inductive Reporter where
  | waiting
  | stored
  | checked (stopped : Bool)
  | done (signalled : Bool)
deriving DecidableEq

/-- Where a call of `stop_ids` is. -/
inductive Stopper where
  | called
  | stored
  | checked (pgid : ℕ)
  | signalled (hit : Bool)
  | forgotten (hit : Bool)
deriving DecidableEq

/-- `GroupState` of one command, and what has been done about its group. -/
structure Group where
  pgid : ℕ
  stopped : Bool
  reporter : Reporter
  stoppers : List Stopper
  signals : ℕ
  recorded : Bool

def Group.start : Group := ⟨0, false, .waiting, [], 0, false⟩

/-- One access to the shared state by one of those at work. -/
inductive Access where
  | report (pgid : ℕ)
  | checkStopped
  | act
  | call
  | stop (i : ℕ)

/-- The next access of a call to stop. -/
def Group.stopNext (g : Group) (i : ℕ) : Stopper → Group
  | .called => { g with stopped := true, stoppers := g.stoppers.set i .stored }
  | .stored => { g with stoppers := g.stoppers.set i (.checked g.pgid) }
  | .checked pgid =>
    { g with
      signals := if pgid > 1 then g.signals + 1 else g.signals
      stoppers := g.stoppers.set i (.signalled (pgid > 1)) }
  | .signalled hit => { g with recorded := false, stoppers := g.stoppers.set i (.forgotten hit) }
  | .forgotten _ => g

namespace Group

/-- `PgidReader` reports a group only above 1. -/
def report (g : Group) (pgid : ℕ) : Group :=
  if g.reporter = .waiting ∧ pgid > 1 then { g with pgid := pgid, reporter := .stored } else g

def checkStopped (g : Group) : Group :=
  if g.reporter = .stored then { g with reporter := .checked g.stopped } else g

def act (g : Group) : Group :=
  match g.reporter with
  | .checked true => { g with signals := g.signals + 1, reporter := .done true }
  | .checked false => { g with recorded := true, reporter := .done false }
  | _ => g

def call (g : Group) : Group := { g with stoppers := g.stoppers ++ [.called] }

def stop (g : Group) (i : ℕ) : Group :=
  match g.stoppers[i]? with
  | none => g
  | some stopper => g.stopNext i stopper

def step : Access → Group → Group
  | .report pgid, g => g.report pgid
  | .checkStopped, g => g.checkStopped
  | .act, g => g.act
  | .call, g => g.call
  | .stop i, g => g.stop i

end Group

/-- A call to stop came too early to see the group. -/
def Stopper.missed : Stopper → Bool
  | .checked pgid => pgid ≤ 1
  | .signalled hit => !hit
  | .forgotten hit => !hit
  | _ => false

/-- It signalled the group. -/
def Stopper.hit : Stopper → Bool
  | .signalled hit => hit
  | .forgotten hit => hit
  | _ => false

/-- The group was reported to one who saw no stop. -/
def Reporter.sawNone : Reporter → Bool
  | .checked stopped => !stopped
  | .done signalled => !signalled
  | _ => false

structure Guarded (g : Group) : Prop where
  known : g.reporter ≠ .waiting → 1 < g.pgid
  stopped : g.stopped = true ↔ ∃ s ∈ g.stoppers, s ≠ .called
  never : g.reporter.sawNone = true → ∀ s ∈ g.stoppers, s.missed = false
  counted : (∃ s ∈ g.stoppers, s.hit = true) ∨ g.reporter = .done true → 0 < g.signals
  unstopped : g.stopped = false → g.signals = 0 ∧ g.reporter ≠ .checked true ∧ (g.reporter = .done false → g.recorded = true)

variable {g : Group}

theorem Guarded.start : Guarded .start := by
  refine ⟨fun h => absurd rfl h, ⟨fun h => (by cases h), fun h => ?_⟩, fun h => (by cases h), fun h => ?_, fun _ => ⟨rfl, fun h => (by cases h),
    fun h => (by cases h)⟩⟩
  · obtain ⟨s, hs, -⟩ := h
    cases hs
  · rcases h with ⟨s, hs, -⟩ | h
    · cases hs
    · cases h

theorem mem_set_of {s t : Stopper} {i : ℕ} (hi : g.stoppers[i]? = some s) : t ∈ g.stoppers.set i t :=
  List.mem_set (List.getElem?_eq_some_iff.mp hi).1 t

/-- What holds of all in a list after one of them is changed. -/
theorem exists_set {s t : Stopper} {i : ℕ} (hi : g.stoppers[i]? = some s) {p : Stopper → Prop} (hp : p t ↔ p s) :
    (∃ x ∈ g.stoppers.set i t, p x) ↔ ∃ x ∈ g.stoppers, p x := by
  obtain ⟨hlength, hs⟩ := List.getElem?_eq_some_iff.mp hi
  constructor
  · rintro ⟨x, hx, hpx⟩
    rcases List.mem_or_eq_of_mem_set hx with hx | rfl
    · exact ⟨x, hx, hpx⟩
    · exact ⟨s, List.mem_of_getElem? hi, hp.mp hpx⟩
  · rintro ⟨x, hx, hpx⟩
    obtain ⟨j, hj, rfl⟩ := List.mem_iff_getElem.mp hx
    by_cases hij : i = j
    · subst hij
      rw [hs] at hpx
      exact ⟨t, mem_set_of hi, hp.mpr hpx⟩
    · refine ⟨_, List.mem_iff_getElem.mpr ⟨j, by rwa [List.length_set], rfl⟩, ?_⟩
      rwa [List.getElem_set_ne hij]

theorem forall_set {t : Stopper} {i : ℕ} {p : Stopper → Prop} (hp : p t) (h : ∀ x ∈ g.stoppers, p x) :
    ∀ x ∈ g.stoppers.set i t, p x := fun x hx => by
  rcases List.mem_or_eq_of_mem_set hx with hx | rfl
  · exact h x hx
  · exact hp

theorem Guarded.stopNext (h : Guarded g) {i : ℕ} {s : Stopper} (hi : g.stoppers[i]? = some s) : Guarded (g.stopNext i s) := by
  have hmem := List.mem_of_getElem? hi
  cases s with
  | called =>
    refine ⟨h.known, ⟨fun _ => ⟨.stored, mem_set_of hi, fun h => by cases h⟩, fun _ => rfl⟩,
      fun hnone => forall_set rfl (h.never hnone), fun hhit => h.counted (hhit.imp_left (exists_set hi (by decide)).mp), fun hstopped => ?_⟩
    cases hstopped
  | stored =>
    have hstopped : g.stopped = true := h.stopped.mpr ⟨_, hmem, fun h => by cases h⟩
    refine ⟨h.known, h.stopped.trans (exists_set hi ?_).symm, fun hnone => forall_set ?_ (h.never hnone),
      fun hhit => h.counted (hhit.imp_left (exists_set hi ?_).mp), fun hno => ?_⟩
    · exact iff_of_true (fun h => by cases h) fun h => by cases h
    · have hpgid := h.known fun hwaiting => by
        change g.reporter.sawNone = true at hnone
        rw [hwaiting] at hnone
        cases hnone
      exact decide_eq_false (by omega)
    · exact Iff.rfl
    · change g.stopped = false at hno
      rw [hstopped] at hno
      cases hno
  | checked pgid =>
    have hstopped : g.stopped = true := h.stopped.mpr ⟨_, hmem, fun h => by cases h⟩
    refine ⟨h.known, h.stopped.trans (exists_set hi ?_).symm, fun hnone => forall_set ?_ (h.never hnone), fun hhit => ?_, fun hno => ?_⟩
    · exact iff_of_true (fun h => by cases h) fun h => by cases h
    · have hseen := h.never hnone _ hmem
      change decide (pgid ≤ 1) = false at hseen
      rw [decide_eq_false_iff_not] at hseen
      change (!decide (pgid > 1)) = false
      rw [Bool.not_eq_false', decide_eq_true_eq]
      omega
    · change 0 < if pgid > 1 then g.signals + 1 else g.signals
      split
      · exact Nat.succ_pos _
      · rename_i hno
        refine h.counted (hhit.imp_left (exists_set hi ?_).mp)
        change decide (pgid > 1) = true ↔ false = true
        simp [hno]
    · change g.stopped = false at hno
      rw [hstopped] at hno
      cases hno
  | signalled hit =>
    have hstopped : g.stopped = true := h.stopped.mpr ⟨_, hmem, fun h => by cases h⟩
    refine ⟨h.known, h.stopped.trans (exists_set hi ?_).symm, fun hnone => forall_set ?_ (h.never hnone),
      fun hhit => h.counted (hhit.imp_left (exists_set hi ?_).mp), fun hno => ?_⟩
    · exact iff_of_true (fun h => by cases h) fun h => by cases h
    · have hseen : (Stopper.signalled hit).missed = false := h.never hnone _ hmem
      exact hseen
    · exact Iff.rfl
    · change g.stopped = false at hno
      rw [hstopped] at hno
      cases hno
  | forgotten hit => exact h

theorem Guarded.report (h : Guarded g) (pgid : ℕ) : Guarded (g.report pgid) := by
  unfold Group.report
  split
  · rename_i hreport
    refine ⟨fun _ => hreport.2, h.stopped, fun hnone => (by cases hnone), fun hhit => h.counted (hhit.imp_right fun h => (by cases h)),
      fun hno => ⟨(h.unstopped hno).1, fun h => (by cases h), fun h => (by cases h)⟩⟩
  · exact h

theorem Guarded.checkStopped (h : Guarded g) : Guarded g.checkStopped := by
  unfold Group.checkStopped
  split
  · rename_i hstored
    have hwaiting : g.reporter ≠ .waiting := by
      rw [hstored]
      exact fun h => by cases h
    refine ⟨fun _ => h.known hwaiting, h.stopped, fun hnone s hs => ?_, fun hhit => h.counted (hhit.imp_right fun h => (by cases h)),
      fun hno => ⟨(h.unstopped hno).1, fun hchecked => ?_, fun h => (by cases h)⟩⟩
    · change (!g.stopped) = true at hnone
      rw [Bool.not_eq_true'] at hnone
      by_cases hcalled : s = .called
      · rw [hcalled]
        rfl
      · have hstopped := h.stopped.mpr ⟨s, hs, hcalled⟩
        rw [hnone] at hstopped
        cases hstopped
    · change Reporter.checked g.stopped = .checked true at hchecked
      change g.stopped = false at hno
      rw [hno] at hchecked
      cases hchecked
  · exact h

theorem Guarded.act (h : Guarded g) : Guarded g.act := by
  unfold Group.act
  cases hreporter : g.reporter with
  | checked stopped =>
    have hwaiting : g.reporter ≠ .waiting := by
      rw [hreporter]
      exact fun h => by cases h
    cases stopped with
    | true =>
      refine ⟨fun _ => h.known hwaiting, h.stopped, fun hnone => (by cases hnone), fun _ => Nat.succ_pos _, fun hno => ?_⟩
      exact absurd hreporter (h.unstopped hno).2.1
    | false =>
      refine ⟨fun _ => h.known hwaiting, h.stopped, fun _ => h.never (by rw [hreporter]; rfl),
        fun hhit => h.counted (hhit.imp_right fun h => (by cases h)), fun hno => ⟨(h.unstopped hno).1, fun h => (by cases h), fun _ => rfl⟩⟩
  | waiting => exact h
  | stored => exact h
  | done signalled => exact h

theorem Guarded.call (h : Guarded g) : Guarded g.call := by
  refine ⟨h.known, h.stopped.trans ?_, fun hnone s hs => ?_, fun hhit => h.counted (hhit.imp_left ?_), h.unstopped⟩
  · change _ ↔ ∃ s ∈ g.stoppers ++ [Stopper.called], s ≠ .called
    simp
  · rcases List.mem_append.mp hs with hs | hs
    · exact h.never hnone s hs
    · rw [List.mem_singleton.mp hs]
      rfl
  · rintro ⟨s, hs, hhit⟩
    rcases List.mem_append.mp hs with hs | hs
    · exact ⟨s, hs, hhit⟩
    · rw [List.mem_singleton.mp hs] at hhit
      cases hhit

theorem Guarded.step (h : Guarded g) (a : Access) : Guarded (g.step a) := by
  cases a with
  | report pgid => exact h.report pgid
  | checkStopped => exact h.checkStopped
  | act => exact h.act
  | call => exact h.call
  | stop i =>
    change Guarded (g.stop i)
    unfold Group.stop
    cases hi : g.stoppers[i]? with
    | none => exact h
    | some s => exact h.stopNext hi

theorem guarded_run (accesses : List Access) : Guarded (run Group.step .start accesses) :=
  run_keeps (P := fun _ _ => True) Guarded (fun _ a h _ => h.step a) Guarded.start fun _ _ _ _ => trivial

/-- However the accesses of those who stop a command and of the one who reads its group's line fall between each other: once
one of them has stopped it and the group was reported, the group was signalled. A command nobody stops is never signalled, and
its group is recorded for the next launch. -/
theorem stop_never_missed (accesses : List Access) :
    let g := run Group.step .start accesses
    (∀ s ∈ g.stoppers, ∀ hit signalled, s = .signalled hit ∨ s = .forgotten hit → g.reporter = .done signalled → 0 < g.signals) ∧
      (g.stoppers = [] → g.signals = 0 ∧ ∀ signalled, g.reporter = .done signalled → g.recorded = true) := by
  have h := guarded_run accesses
  intro g
  refine ⟨fun s hs hit signalled hdone hreporter => ?_, fun hnone => ?_⟩
  · cases signalled with
    | true => exact h.counted (Or.inr hreporter)
    | false =>
      have hseen := h.never (by rw [hreporter]; rfl) s hs
      refine h.counted (Or.inl ⟨s, hs, ?_⟩)
      rcases hdone with rfl | rfl
      · exact (Bool.not_eq_false' hit).mp hseen
      · exact (Bool.not_eq_false' hit).mp hseen
  · have hstopped : g.stopped = false := by
      rw [← Bool.not_eq_true, h.stopped, hnone]
      rintro ⟨s, hs, -⟩
      cases hs
    obtain ⟨hsignals, -, hrecorded⟩ := h.unstopped hstopped
    refine ⟨hsignals, fun signalled hreporter => ?_⟩
    cases signalled with
    | true =>
      have hpos := h.counted (Or.inr hreporter)
      rw [hsignals] at hpos
      cases hpos
    | false => exact hrecorded hreporter

end Haruspex.Background
