import Mathlib.Data.List.Forall2
import Mathlib.Data.Nat.Basic
import Mathlib.Order.Basic
import Mathlib.Tactic.Common

/-! A one-pass admission scan over a vector of jobs. Every job has a class; a class admits up to
its capacity, and a job may be held back on its own account. The scan goes through the vector
once, starts each idle job whose class has room and which is not held, and keeps its own count of
the running jobs of each class.

The results: the scan leaves no idle job that could start, it never takes a class past its
capacity, a job is only ever overtaken while it is held, and the scan of one class does not
depend on the jobs of the others. -/
namespace Haruspex.AdmissionScan
set_option autoImplicit false

/-- What an admission scan needs to know about its jobs. -/
structure Gate (α κ : Type*) where
  key : α → κ
  running : α → Bool
  start : α → α
  cap : κ → ℕ
  held : α → Bool
  key_start : ∀ a, key (start a) = key a
  running_start : ∀ a, running (start a) = true

variable {α κ : Type*} [DecidableEq κ] (g : Gate α κ)

namespace Gate

/-- The running jobs of class `k`. -/
def count (jobs : List α) (k : κ) : ℕ :=
  jobs.countP (fun a => decide (g.key a = k) && g.running a)

/-- The test the scan makes, with the running counts so far. -/
def admits (running : κ → ℕ) (a : α) : Bool :=
  !g.running a && decide (running (g.key a) < g.cap (g.key a)) && !g.held a

/-- One more running job of class `k`. -/
def bump (running : κ → ℕ) (k : κ) : κ → ℕ := Function.update running k (running k + 1)

/-- The jobs after the scan. -/
def scan : (κ → ℕ) → List α → List α
  | _, [] => []
  | running, a :: as =>
    if g.admits running a then g.start a :: scan (bump running (g.key a)) as
    else a :: scan running as

/-- The jobs the scan starts, as they were, in order. -/
def started : (κ → ℕ) → List α → List α
  | _, [] => []
  | running, a :: as =>
    if g.admits running a then a :: started (bump running (g.key a)) as else started running as

/-- The scan's counts when it ends. -/
def tally : (κ → ℕ) → List α → κ → ℕ
  | running, [] => running
  | running, a :: as =>
    if g.admits running a then tally (bump running (g.key a)) as else tally running as

theorem bump_self (running : κ → ℕ) (k : κ) : bump running k k = running k + 1 := by
  simp [bump]

theorem bump_of_ne (running : κ → ℕ) {k l : κ} (h : l ≠ k) : bump running k l = running l := by
  simp [bump, h]

theorem le_bump (running : κ → ℕ) (k l : κ) : running l ≤ bump running k l := by
  by_cases h : l = k
  · rw [h, bump_self]
    exact Nat.le_succ _
  · exact (bump_of_ne running h).ge

omit [DecidableEq κ] in
theorem admits_iff (running : κ → ℕ) (a : α) : g.admits running a = true ↔
    g.running a = false ∧ running (g.key a) < g.cap (g.key a) ∧ g.held a = false := by
  simp [admits, and_assoc]

/-! ## What the scan does to each job -/

/-- A job as the scan leaves it: untouched, or an idle job that is not held, started. -/
def Outcome (a b : α) : Prop :=
  b = a ∨ (g.running a = false ∧ g.held a = false ∧ b = g.start a)

theorem scan_outcome (running : κ → ℕ) (jobs : List α) :
    List.Forall₂ g.Outcome jobs (g.scan running jobs) := by
  induction jobs generalizing running with
  | nil => exact List.Forall₂.nil
  | cons a as ih =>
    rw [scan]
    split
    · rename_i ha
      obtain ⟨hidle, -, hheld⟩ := (g.admits_iff running a).mp ha
      exact List.Forall₂.cons (Or.inr ⟨hidle, hheld, rfl⟩) (ih _)
    · exact List.Forall₂.cons (Or.inl rfl) (ih _)

omit [DecidableEq κ] in
theorem key_outcome {a b : α} (h : g.Outcome a b) : g.key b = g.key a := by
  rcases h with rfl | ⟨-, -, rfl⟩
  · rfl
  · exact g.key_start a

theorem scan_length (running : κ → ℕ) (jobs : List α) :
    (g.scan running jobs).length = jobs.length :=
  (g.scan_outcome running jobs).length_eq.symm

theorem scan_append (running : κ → ℕ) (as bs : List α) : g.scan running (as ++ bs) =
    g.scan running as ++ g.scan (g.tally running as) bs := by
  induction as generalizing running with
  | nil => rfl
  | cons a as ih =>
    rw [List.cons_append, scan, scan, tally]
    split
    · rw [ih, List.cons_append]
    · rw [ih, List.cons_append]

theorem started_append (running : κ → ℕ) (as bs : List α) : g.started running (as ++ bs) =
    g.started running as ++ g.started (g.tally running as) bs := by
  induction as generalizing running with
  | nil => rfl
  | cons a as ih =>
    rw [List.cons_append, started, started, tally]
    split
    · rw [ih, List.cons_append]
    · rw [ih]

theorem tally_append (running : κ → ℕ) (as bs : List α) : g.tally running (as ++ bs) =
    g.tally (g.tally running as) bs := by
  induction as generalizing running with
  | nil => rfl
  | cons a as ih =>
    rw [List.cons_append, tally, tally]
    split
    · rw [ih]
    · rw [ih]

/-- A scan that admits nobody changes nothing. -/
theorem scan_eq_self (running : κ → ℕ) (jobs : List α)
    (h : ∀ a ∈ jobs, g.admits running a = false) : g.scan running jobs = jobs := by
  induction jobs with
  | nil => rfl
  | cons a as ih =>
    rw [scan, h a (by simp), ih (fun b hb => h b (by simp [hb]))]
    rfl

theorem started_eq_nil (running : κ → ℕ) (jobs : List α)
    (h : ∀ a ∈ jobs, g.admits running a = false) : g.started running jobs = [] := by
  induction jobs with
  | nil => rfl
  | cons a as ih =>
    rw [started, h a (by simp), ih (fun b hb => h b (by simp [hb]))]
    rfl

theorem idle_of_started (running : κ → ℕ) (jobs : List α) {a : α}
    (h : a ∈ g.started running jobs) :
    a ∈ jobs ∧ g.running a = false ∧ g.held a = false := by
  induction jobs generalizing running with
  | nil => simp [started] at h
  | cons b bs ih =>
    rw [started] at h
    split at h
    · rename_i hb
      rcases List.mem_cons.mp h with rfl | h
      · obtain ⟨hidle, -, hheld⟩ := (g.admits_iff running a).mp hb
        exact ⟨List.mem_cons_self, hidle, hheld⟩
      · exact ⟨List.mem_cons_of_mem _ (ih _ h).1, (ih _ h).2⟩
    · exact ⟨List.mem_cons_of_mem _ (ih _ h).1, (ih _ h).2⟩

/-- After the scan of distinct jobs, a job is one it left alone or one it started. -/
theorem mem_scan_iff (running : κ → ℕ) (jobs : List α) (hnd : jobs.Nodup) (b : α) :
    b ∈ g.scan running jobs ↔
      (b ∈ jobs ∧ b ∉ g.started running jobs) ∨ ∃ a ∈ g.started running jobs, g.start a = b := by
  induction jobs generalizing running with
  | nil => simp [scan, started]
  | cons c cs ih =>
    obtain ⟨hc, hcs⟩ := List.nodup_cons.mp hnd
    have hne : ∀ running', b ∈ cs ∧ b ∉ g.started running' cs → b ≠ c := by
      rintro running' ⟨hb, -⟩ rfl
      exact hc hb
    have hstarted : ∀ running', c ∉ g.started running' cs :=
      fun running' h => hc (g.idle_of_started running' cs h).1
    rw [scan, started]
    split
    · rw [List.mem_cons, ih _ hcs]
      constructor
      · rintro (rfl | h | ⟨a, ha, rfl⟩)
        · exact Or.inr ⟨c, List.mem_cons_self, rfl⟩
        · exact Or.inl ⟨List.mem_cons_of_mem _ h.1,
            fun hb => (List.mem_cons.mp hb).elim (hne _ h) h.2⟩
        · exact Or.inr ⟨a, List.mem_cons_of_mem _ ha, rfl⟩
      · rintro (⟨hb, hno⟩ | ⟨a, ha, rfl⟩)
        · rw [List.mem_cons, not_or] at hno
          exact Or.inr (Or.inl ⟨(List.mem_cons.mp hb).resolve_left hno.1, hno.2⟩)
        · rcases List.mem_cons.mp ha with rfl | ha
          · exact Or.inl rfl
          · exact Or.inr (Or.inr ⟨a, ha, rfl⟩)
    · rw [List.mem_cons, ih _ hcs]
      constructor
      · rintro (rfl | h | h)
        · exact Or.inl ⟨List.mem_cons_self, hstarted _⟩
        · exact Or.inl ⟨List.mem_cons_of_mem _ h.1, h.2⟩
        · exact Or.inr h
      · rintro (⟨hb, hno⟩ | h)
        · rcases List.mem_cons.mp hb with rfl | hb
          · exact Or.inl rfl
          · exact Or.inr (Or.inl ⟨hb, hno⟩)
        · exact Or.inr (Or.inr h)

/-! ## Counting -/

theorem count_cons (a : α) (as : List α) (k : κ) : g.count (a :: as) k =
    g.count as k + if g.key a = k ∧ g.running a = true then 1 else 0 := by
  simp [count, List.countP_cons]

/-- The scan's own counts are right: they count what was there and what it started. -/
theorem tally_eq (running base : κ → ℕ) (jobs : List α)
    (h : ∀ k, running k = base k + g.count jobs k) (k : κ) :
    g.tally running jobs k = base k + g.count (g.scan running jobs) k := by
  induction jobs generalizing running base with
  | nil => simpa [tally, scan] using h k
  | cons a as ih =>
    by_cases ha : g.admits running a = true
    · obtain ⟨hidle, -, -⟩ := (g.admits_iff running a).mp ha
      rw [tally, scan, if_pos ha, if_pos ha]
      have hrun : ∀ l, bump running (g.key a) l =
          bump base (g.key a) l + g.count as l := by
        intro l
        have hl := h l
        rw [count_cons, hidle] at hl
        by_cases e : l = g.key a
        · subst e
          rw [bump_self, bump_self]
          simp at hl
          omega
        · rw [bump_of_ne _ e, bump_of_ne _ e]
          simpa using hl
      rw [ih _ _ hrun, count_cons, g.key_start, g.running_start]
      by_cases e : k = g.key a
      · subst e
        rw [bump_self]
        simp
        omega
      · rw [bump_of_ne _ e]
        simp [Ne.symm e]
    · rw [tally, scan, if_neg ha, if_neg ha]
      have hrun : ∀ l, running l =
          (base l + if g.key a = l ∧ g.running a = true then 1 else 0) + g.count as l := by
        intro l
        rw [h l, count_cons]
        omega
      rw [ih _ _ hrun, count_cons]
      omega

theorem le_tally (running : κ → ℕ) (jobs : List α) (k : κ) :
    running k ≤ g.tally running jobs k := by
  induction jobs generalizing running with
  | nil => exact Nat.le_refl _
  | cons a as ih =>
    rw [tally]
    split
    · exact (le_bump running (g.key a) k).trans (ih _)
    · exact ih _

/-- A class that is within its capacity stays within it. -/
theorem tally_le (running : κ → ℕ) (jobs : List α) (k : κ) (h : running k ≤ g.cap k) :
    g.tally running jobs k ≤ g.cap k := by
  induction jobs generalizing running with
  | nil => exact h
  | cons a as ih =>
    rw [tally]
    split
    · rename_i ha
      obtain ⟨-, hroom, -⟩ := (g.admits_iff running a).mp ha
      refine ih _ ?_
      by_cases e : k = g.key a
      · subst e
        rw [bump_self]
        omega
      · rw [bump_of_ne _ e]
        exact h
    · exact ih _ h

/-- A class has room before the scan if the scan starts one of its jobs. -/
theorem room_of_started (running : κ → ℕ) (jobs : List α) {a : α}
    (h : a ∈ g.started running jobs) : running (g.key a) < g.cap (g.key a) := by
  induction jobs generalizing running with
  | nil => simp [started] at h
  | cons b bs ih =>
    rw [started] at h
    split at h
    · rename_i hb
      rcases List.mem_cons.mp h with rfl | h
      · exact ((g.admits_iff running a).mp hb).2.1
      · exact (le_bump running (g.key b) (g.key a)).trans_lt (ih _ h)
    · exact ih _ h

/-! ## No job is left that could start -/

theorem blocked_of_idle (running : κ → ℕ) (jobs : List α) {b : α}
    (hb : b ∈ g.scan running jobs) (hidle : g.running b = false) :
    g.cap (g.key b) ≤ g.tally running jobs (g.key b) ∨ g.held b = true := by
  induction jobs generalizing running with
  | nil => simp [scan] at hb
  | cons a as ih =>
    rw [scan] at hb
    rw [tally]
    split at hb <;> rename_i ha
    · rw [if_pos ha]
      rcases List.mem_cons.mp hb with rfl | hb
      · rw [g.running_start] at hidle
        cases hidle
      · exact ih _ hb
    · rw [if_neg ha]
      rcases List.mem_cons.mp hb with rfl | hb
      · -- it was passed over in its own turn, and the counts only grow after that
        by_cases hheld : g.held b = true
        · exact Or.inr hheld
        · left
          have hfull : g.cap (g.key b) ≤ running (g.key b) := by
            by_contra hroom
            exact ha ((g.admits_iff running b).mpr ⟨hidle, by omega, by simpa using hheld⟩)
          exact hfull.trans (g.le_tally running as (g.key b))
      · exact ih _ hb

/-! ## Order -/

/-- An idle job that runs after the scan was started by it. -/
theorem mem_started (running : κ → ℕ) (jobs : List α) (j : ℕ) {b b' : α}
    (hb : jobs[j]? = some b) (hidle : g.running b = false)
    (hb' : (g.scan running jobs)[j]? = some b') (hrun : g.running b' = true) :
    b ∈ g.started running jobs := by
  induction jobs generalizing running j with
  | nil => simp at hb
  | cons c cs ih =>
    rw [scan] at hb'
    rw [started]
    cases j with
    | zero =>
      obtain rfl : c = b := by simpa using hb
      split at hb' <;> rename_i hc
      · rw [if_pos hc]
        exact List.mem_cons_self
      · obtain rfl : c = b' := by simpa using hb'
        rw [hidle] at hrun
        cases hrun
    | succ j =>
      have hb : cs[j]? = some b := by simpa using hb
      split at hb' <;> rename_i hc
      · rw [if_pos hc]
        exact List.mem_cons_of_mem _ (ih _ j hb (by simpa using hb'))
      · rw [if_neg hc]
        exact ih _ j hb (by simpa using hb')

/-- A job is left behind by a later one of its class only while it is held. -/
theorem held_of_overtaken (running : κ → ℕ) (jobs : List α) (i j : ℕ) (hij : i < j) {a b a' b' : α}
    (ha : jobs[i]? = some a) (ha' : (g.scan running jobs)[i]? = some a')
    (hidle : g.running a' = false)
    (hb : jobs[j]? = some b) (hb' : (g.scan running jobs)[j]? = some b')
    (hbidle : g.running b = false) (hrun : g.running b' = true) (hkey : g.key b = g.key a) :
    g.held a = true := by
  induction jobs generalizing running i j with
  | nil => simp at ha
  | cons c cs ih =>
    rw [scan] at ha' hb'
    obtain ⟨j, rfl⟩ : ∃ n, j = n + 1 := ⟨j - 1, by omega⟩
    have hb : cs[j]? = some b := by simpa using hb
    cases i with
    | zero =>
      obtain rfl : c = a := by simpa using ha
      split at ha' <;> rename_i hc
      · obtain rfl : g.start c = a' := by simpa using ha'
        rw [g.running_start] at hidle
        cases hidle
      · obtain rfl : c = a' := by simpa using ha'
        rw [if_neg hc] at hb'
        -- `b` was started, so its class had room when `c` was passed over
        have hroom := g.room_of_started running cs
          (g.mem_started running cs j hb hbidle (by simpa using hb') hrun)
        rw [hkey] at hroom
        by_contra hheld
        exact hc ((g.admits_iff running c).mpr ⟨hidle, hroom, by simpa using hheld⟩)
    | succ i =>
      have ha : cs[i]? = some a := by simpa using ha
      have hij : i < j := by omega
      split at ha' <;> rename_i hc
      · rw [if_pos hc] at hb'
        exact ih _ i j hij ha (by simpa using ha') hb (by simpa using hb')
      · rw [if_neg hc] at hb'
        exact ih _ i j hij ha (by simpa using ha') hb (by simpa using hb')

/-! ## One class at a time -/

omit [DecidableEq κ] in
/-- Whether the scan admits a job depends on its own class's count only. -/
theorem admits_congr {running running' : κ → ℕ} {a : α}
    (h : running (g.key a) = running' (g.key a)) : g.admits running a = g.admits running' a := by
  rw [admits, admits, h]

/-- The scan of one class's jobs is the class's part of the whole scan. -/
theorem scan_filter (k : κ) (running running' : κ → ℕ) (jobs : List α)
    (h : running k = running' k) :
    (g.scan running jobs).filter (fun a => g.key a = k) =
      g.scan running' (jobs.filter (fun a => g.key a = k)) := by
  induction jobs generalizing running running' with
  | nil => rfl
  | cons a as ih =>
    by_cases e : g.key a = k
    · have hadm : g.admits running a = g.admits running' a := g.admits_congr (by rw [e]; exact h)
      rw [List.filter_cons_of_pos (by simpa using e), scan, scan, hadm]
      split
      · rw [List.filter_cons_of_pos (by simpa [g.key_start] using e),
          ih (bump running (g.key a)) (bump running' (g.key a)) (by simp [bump, e, h])]
      · rw [List.filter_cons_of_pos (by simpa using e), ih _ _ h]
    · rw [List.filter_cons_of_neg (by simpa using e), scan]
      split
      · rw [List.filter_cons_of_neg (by simpa [g.key_start] using e),
          ih (bump running (g.key a)) running' (by rw [bump_of_ne _ (Ne.symm e)]; exact h)]
      · rw [List.filter_cons_of_neg (by simpa using e), ih _ _ h]

/-- Two gates that agree on one class scan the jobs of that class alike. -/
theorem scan_congr (g' : Gate α κ) (hkey : g'.key = g.key) (hrunning : g'.running = g.running)
    (hstart : g'.start = g.start) {k : κ} (hcap : g'.cap k = g.cap k) {running running' : κ → ℕ}
    (h : running' k = running k) (jobs : List α) (hjobs : ∀ a ∈ jobs, g.key a = k)
    (hheld : ∀ a ∈ jobs, g'.held a = g.held a) : g'.scan running' jobs = g.scan running jobs := by
  induction jobs generalizing running running' with
  | nil => rfl
  | cons a as ih =>
    have hk : g.key a = k := hjobs a List.mem_cons_self
    have hadm : g'.admits running' a = g.admits running a := by
      rw [admits, admits, hkey, hrunning, hheld a List.mem_cons_self, hk, hcap, h]
    have htail := fun b hb => hjobs b (List.mem_cons_of_mem a hb)
    have hheld' := fun b hb => hheld b (List.mem_cons_of_mem a hb)
    rw [scan, scan, hadm, hstart, hkey, hk]
    split
    · have hbump : bump running' k k = bump running k k := by rw [bump_self, bump_self, h]
      rw [ih hbump htail hheld']
    · rw [ih h htail hheld']

end Gate

end Haruspex.AdmissionScan
