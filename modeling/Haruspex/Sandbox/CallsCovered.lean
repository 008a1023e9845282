import Haruspex.Sandbox.CallsSettle

/-! No call of the sandbox's worker is left in flight without something to wait on. -/
namespace Haruspex.Sandbox.Calls
open KeyedMap Runs
set_option autoImplicit false

/-! ## Invariants -/

/-- A timer that is still armed is for what it was set for. -/
structure Clocks (m : Manager) : Prop where
  below : ∀ t k, m.armed t = some k → t < m.nextTimer
  ofRun : ∀ id p t, m.pending.lookup id = some p → some t ∈ p.timers →
    t < m.nextTimer ∧ ∀ k, m.armed t = some k → k.run = some id
  ofBoot : ∀ t, m.bootTimer = some t → t < m.nextTimer ∧ ∀ k, m.armed t = some k → k = .boot
  ofGlobals : ∀ id t, m.pendingGlobals.lookup id = some t → t < m.nextTimer ∧ ∀ k, m.armed t = some k → k = .globals id

/-- What an unsettled run waits on: to be woken by the worker or the boot timer, on its own promise, on an answer of the
backend, on the worker's answer to a sync, or on a timer of its own. -/
def Covered (m : Manager) (id : ℕ) : Phase → Prop
  | .waiting => id ∈ m.readyWaiters ∧ m.ready = false ∧ m.readyError = none ∧ ∃ t, m.armed t = some .boot
  | .woken (some _) => True
  | .woken none | .policy | .policySet | .sync | .synced => m.ready = true
  | .ack syncId => m.ready = true ∧ m.pendingSyncs.lookup syncId = some id
  | .finished => ∃ t k, m.armed t = some k ∧ k.run = some id

structure Covers (m : Manager) : Prop where
  live : m.worker = none → ∀ id, m.pending.lookup id = none
  booting : m.worker.isSome = true → m.ready = false → m.readyError = none → ∃ t, m.armed t = some .boot
  covered : ∀ id p c, m.pending.lookup id = some p → m.calls id = some c → Covered m id c.phase

structure Sound (m : Manager) : Prop where
  tidy : Tidy m
  clocks : Clocks m
  covers : Covers m

/-! ## Timers -/

theorem disarm_eq_some {armed : ℕ → Option TimerKind} {timers : List (Option ℕ)} {t : ℕ} {k : TimerKind} :
    disarm armed timers t = some k ↔ some t ∉ timers ∧ armed t = some k := by
  unfold disarm
  split <;> simp_all

variable {m : Manager}

theorem Clocks.clear (h : Clocks m) (timers : List (Option ℕ)) : Clocks (m.clearTimers timers) where
  below t k harmed := h.below t k (disarm_eq_some.mp harmed).2
  ofRun id p t hp ht := ⟨(h.ofRun id p t hp ht).1, fun k harmed => (h.ofRun id p t hp ht).2 k (disarm_eq_some.mp harmed).2⟩
  ofBoot t ht := ⟨(h.ofBoot t ht).1, fun k harmed => (h.ofBoot t ht).2 k (disarm_eq_some.mp harmed).2⟩
  ofGlobals id t ht :=
    ⟨(h.ofGlobals id t ht).1, fun k harmed => (h.ofGlobals id t ht).2 k (disarm_eq_some.mp harmed).2⟩

theorem setTimer_old {kind : TimerKind} {t : ℕ} (h : t < m.nextTimer) : (m.setTimer kind).armed t = m.armed t :=
  Function.update_of_ne (Nat.ne_of_lt h) _ _

theorem setTimer_new (kind : TimerKind) : (m.setTimer kind).armed m.nextTimer = some kind := Function.update_self _ _ _

theorem Clocks.set (h : Clocks m) (kind : TimerKind) : Clocks (m.setTimer kind) := by
  have hold : ∀ {t : ℕ} {P : TimerKind → Prop}, (t < m.nextTimer ∧ ∀ k, m.armed t = some k → P k) →
      t < m.nextTimer + 1 ∧ ∀ k, (m.setTimer kind).armed t = some k → P k := by
    rintro t P ⟨hlt, hkind⟩
    exact ⟨Nat.lt_succ_of_lt hlt, fun k harmed => hkind k ((setTimer_old hlt).symm.trans harmed)⟩
  refine ⟨fun t k harmed => ?_, fun id p t hp ht => hold (h.ofRun id p t hp ht), fun t ht => hold (h.ofBoot t ht),
    fun id t ht => hold (h.ofGlobals id t ht)⟩
  by_cases ht : t = m.nextTimer
  · rw [ht]
    exact Nat.lt_succ_self m.nextTimer
  · have hbefore : m.armed t = some k := (Function.update_of_ne ht _ _).symm.trans harmed
    exact Nat.lt_succ_of_lt (h.below t k hbefore)

/-- The timer set last is for what it was set for. -/
theorem setTimer_newest (kind : TimerKind) :
    m.nextTimer < (m.setTimer kind).nextTimer ∧ ∀ k, (m.setTimer kind).armed m.nextTimer = some k → k = kind := by
  refine ⟨Nat.lt_succ_self m.nextTimer, fun k harmed => ?_⟩
  rw [setTimer_new, Option.some_inj] at harmed
  exact harmed.symm

/-- A run's entry is changed: its timers are old ones, or were set for it. -/
theorem Clocks.setPending (h : Clocks m) {id : ℕ} {p : PendingRun}
    (htimers : ∀ t, some t ∈ p.timers → t < m.nextTimer ∧ ∀ k, m.armed t = some k → k.run = some id) :
    Clocks { m with pending := m.pending.insert id p } where
  below := h.below
  ofRun other q t hq ht := by
    dsimp only at hq
    rw [lookup_insert_eq] at hq
    split at hq
    · rename_i heq
      rw [Option.some_inj] at hq
      rw [heq]
      rw [← hq] at ht
      exact htimers t ht
    · exact h.ofRun other q t hq ht
  ofBoot := h.ofBoot
  ofGlobals := h.ofGlobals

/-- Runs may leave. -/
theorem Clocks.leave (h : Clocks m) {pending : Dict ℕ PendingRun}
    (hsome : ∀ id p, pending.lookup id = some p → m.pending.lookup id = some p) : Clocks { m with pending := pending } :=
  ⟨h.below, fun id p t hp ht => h.ofRun id p t (hsome id p hp) ht, h.ofBoot, h.ofGlobals⟩

theorem lookup_of_erase {V : Type} {d : Dict ℕ V} {id other : ℕ} {v : V} (hv : (d.erase id).lookup other = some v) :
    d.lookup other = some v := by
  rw [lookup_erase_eq] at hv
  split at hv
  · cases hv
  · exact hv

theorem Clocks.erase (h : Clocks m) (id : ℕ) : Clocks { m with pending := m.pending.erase id } :=
  h.leave fun _ _ hp => lookup_of_erase hp

theorem Clocks.noBoot (h : Clocks m) : Clocks { m with bootTimer := none } :=
  ⟨h.below, h.ofRun, fun t ht => (by cases ht), h.ofGlobals⟩

theorem Clocks.clearBootTimer (h : Clocks m) : Clocks m.clearBootTimer := (h.clear [m.bootTimer]).noBoot

theorem Clocks.leaveGlobals (h : Clocks m) {pendingGlobals : Dict ℕ ℕ}
    (hsome : ∀ id t, pendingGlobals.lookup id = some t → m.pendingGlobals.lookup id = some t) :
    Clocks { m with pendingGlobals := pendingGlobals } :=
  ⟨h.below, h.ofRun, h.ofBoot, fun id t ht => h.ofGlobals id t (hsome id t ht)⟩

/-- What timers are for does not rest on anything else. -/
theorem Clocks.same (h : Clocks m) {m' : Manager} (harmed : m'.armed = m.armed) (hnext : m'.nextTimer = m.nextTimer)
    (hpending : m'.pending = m.pending) (hboot : m'.bootTimer = m.bootTimer)
    (hglobals : m'.pendingGlobals = m.pendingGlobals) : Clocks m' := by
  constructor
  · rw [harmed, hnext]
    exact h.below
  · rw [harmed, hnext, hpending]
    exact h.ofRun
  · rw [harmed, hnext, hboot]
    exact h.ofBoot
  · rw [harmed, hnext, hglobals]
    exact h.ofGlobals

theorem Clocks.spawn (h : Clocks m) : Clocks m.spawn := by
  have hset := h.clearBootTimer.set .boot
  refine ⟨hset.below, hset.ofRun, fun t ht => ?_, hset.ofGlobals⟩
  obtain rfl : m.nextTimer = t := Option.some_inj.mp ht
  exact @setTimer_newest m.clearBootTimer .boot

theorem Clocks.ensureWorker (h : Clocks m) : Clocks m.ensureWorker := by
  unfold Manager.ensureWorker
  split
  · exact h
  · exact h.spawn

theorem Clocks.rejectAll (h : Clocks m) (reason : String) : Clocks (m.rejectAllPending reason) :=
  ((h.clear (m.pending.entries.flatMap fun e => e.2.timers)).leave (fun _ _ hp => by cases hp)).same rfl rfl rfl rfl rfl

theorem Clocks.resolveGlobals (h : Clocks m) : Clocks m.resolveGlobals :=
  ((h.clear (m.pendingGlobals.entries.map fun e => some e.2)).leaveGlobals (fun _ _ ht => by cases ht)).same rfl rfl rfl rfl rfl

theorem Clocks.respawn (h : Clocks m) : Clocks m.respawn := by
  have hgone : Clocks { { m with worker := none }.clearBootTimer with ready := false, readyError := none } :=
    h.clearBootTimer.same rfl rfl rfl rfl rfl
  have hsyncs : Clocks ({ { m with worker := none }.clearBootTimer with ready := false, readyError := none }
      |>.rejectAllPending "sandbox reset").rejectSyncs := (hgone.rejectAll "sandbox reset").same rfl rfl rfl rfl rfl
  exact hsyncs.resolveGlobals

theorem Clocks.giveUp (h : Clocks m) (id : ℕ) (p : PendingRun) (reason : String) : Clocks (m.giveUp id p reason) :=
  (((h.erase id).clear p.timers).respawn).same rfl rfl rfl rfl rfl

/-! ## One call at a time -/

/-- A run still waits on what it waited on. -/
theorem Covered.mono {m' : Manager} {id : ℕ} {phase : Phase} (h : Covered m id phase) (hready : m'.ready = m.ready)
    (herror : m'.readyError = m.readyError) (hwaiters : id ∈ m.readyWaiters → id ∈ m'.readyWaiters)
    (hsyncs : ∀ s, m.pendingSyncs.lookup s = some id → m'.pendingSyncs.lookup s = some id)
    (hboot : m.ready = false → m.readyError = none → ∀ t, m.armed t = some .boot → m'.armed t = some .boot)
    (hown : (∃ t k, m.armed t = some k ∧ k.run = some id) → ∃ t k, m'.armed t = some k ∧ k.run = some id) :
    Covered m' id phase := by
  cases phase with
  | waiting =>
    obtain ⟨hmem, hnot, hnone, t, ht⟩ := h
    exact ⟨hwaiters hmem, hready.trans hnot, herror.trans hnone, t, hboot hnot hnone t ht⟩
  | woken error =>
    cases error with
    | some error => exact h
    | none => exact hready.trans h
  | policy => exact hready.trans h
  | policySet => exact hready.trans h
  | sync => exact hready.trans h
  | synced => exact hready.trans h
  | ack s => exact ⟨hready.trans h.1, hsyncs s h.2⟩
  | finished => exact hown h

/-- Only what is for one call changes, and it is left with something to wait on if it is in flight. -/
structure Around (id : ℕ) (m m' : Manager) : Prop where
  worker : m'.worker = m.worker
  ready : m'.ready = m.ready
  readyError : m'.readyError = m.readyError
  timers : ∀ t k, m.armed t = some k → m'.armed t = some k ∨ k.run = some id ∨ ∃ other, k = .globals other
  waiters : ∀ other, other ≠ id → other ∈ m.readyWaiters → other ∈ m'.readyWaiters
  syncs : ∀ s other, other ≠ id → m.pendingSyncs.lookup s = some other → m'.pendingSyncs.lookup s = some other
  calls : ∀ other, other ≠ id → m'.calls other = m.calls other
  others : ∀ other p, other ≠ id → m'.pending.lookup other = some p → m.pending.lookup other = some p
  held : ∀ p c, m'.pending.lookup id = some p → m'.calls id = some c → m.worker.isSome = true ∧ Covered m' id c.phase

theorem Around.boot {id : ℕ} {m' : Manager} (h : Around id m m') {t : ℕ} (ht : m.armed t = some .boot) :
    m'.armed t = some .boot := by
  obtain hsame | hrun | ⟨other, hglobals⟩ := h.timers t .boot ht
  · exact hsame
  · cases hrun
  · cases hglobals

theorem Around.keepsCovered {id : ℕ} {m' : Manager} (h : Around id m m') {other : ℕ} (hne : other ≠ id) {phase : Phase}
    (hcovered : Covered m other phase) : Covered m' other phase := by
  refine hcovered.mono h.ready h.readyError (h.waiters other hne) (fun s => h.syncs s other hne) (fun _ _ t => h.boot) ?_
  rintro ⟨t, k, harmed, hrun⟩
  refine ⟨t, k, ?_, hrun⟩
  obtain hsame | hmine | ⟨x, hglobals⟩ := h.timers t k harmed
  · exact hsame
  · rw [hrun, Option.some_inj] at hmine
    exact absurd hmine hne
  · rw [hglobals] at hrun
    cases hrun

theorem Covers.around (h : Covers m) {id : ℕ} {m' : Manager} (haround : Around id m m') (hids : Ids m') : Covers m' where
  live hnone other := by
    refine Option.eq_none_iff_forall_not_mem.mpr fun p hp => ?_
    rw [haround.worker] at hnone
    by_cases heq : other = id
    · rw [heq] at hp
      obtain ⟨c, hc, -⟩ := hids.inFlight id p hp
      have hsome := (haround.held p c hp hc).1
      rw [hnone] at hsome
      cases hsome
    · have hbefore := h.live hnone other
      rw [haround.others other p heq hp] at hbefore
      cases hbefore
  booting hworker hready herror := by
    rw [haround.worker] at hworker
    obtain ⟨t, ht⟩ := h.booting hworker (haround.ready.symm.trans hready) (haround.readyError.symm.trans herror)
    exact ⟨t, haround.boot ht⟩
  covered other p c hp hc := by
    by_cases heq : other = id
    · rw [heq] at hp hc ⊢
      exact (haround.held p c hp hc).2
    · have hbefore := haround.others other p heq hp
      rw [haround.calls other heq] at hc
      exact haround.keepsCovered heq (h.covered other p c hbefore hc)

theorem Covers.working (h : Covers m) {id : ℕ} {p : PendingRun} (hp : m.pending.lookup id = some p) :
    m.worker.isSome = true := by
  refine Option.isSome_iff_ne_none.mpr fun hnone => ?_
  rw [h.live hnone id] at hp
  cases hp

/-- With no run in flight, only the boot timer matters. -/
theorem Covers.idle (hnone : ∀ id, m.pending.lookup id = none)
    (hboot : m.worker.isSome = true → m.ready = false → m.readyError = none → ∃ t, m.armed t = some .boot) : Covers m :=
  ⟨fun _ => hnone, hboot, fun id p c hp _ => by rw [hnone] at hp; cases hp⟩

theorem covers_respawn (m : Manager) : Covers m.respawn :=
  Covers.idle (fun _ => rfl) fun hworker => by cases hworker

theorem Covers.spawn (h : Covers m) (hnone : m.worker = none) : Covers m.spawn :=
  Covers.idle (h.live hnone) fun _ _ _ => ⟨m.nextTimer, Function.update_self _ _ _⟩

theorem Covers.ensureWorker (h : Covers m) : Covers m.ensureWorker := by
  unfold Manager.ensureWorker
  split
  · exact h
  · rename_i hnone
    exact h.spawn (by rwa [Option.not_isSome_iff_eq_none] at hnone)

theorem Sound.ensureWorker (h : Sound m) : Sound m.ensureWorker :=
  ⟨h.tidy.ensureWorker, h.clocks.ensureWorker, h.covers.ensureWorker⟩

theorem ensureWorker_isSome (m : Manager) : m.ensureWorker.worker.isSome = true := by
  unfold Manager.ensureWorker
  split
  · assumption
  · rfl

theorem ensureWorker_eq (h : m.worker.isSome = true) : m.ensureWorker = m := if_pos h

/-! ## Timers -/

theorem mem_timers {p : PendingRun} {t : ℕ} :
    some t ∈ p.timers ↔ p.timer = some t ∨ p.installWatchdog = some t ∨ p.terminateFallback = some t := by
  unfold PendingRun.timers
  simp only [List.mem_cons, List.not_mem_nil, or_false, eq_comm]

theorem disarm_or {timers : List (Option ℕ)} {t : ℕ} {k : TimerKind} {P : TimerKind → Prop}
    (hclear : ∀ t k, some t ∈ timers → m.armed t = some k → P k) (harmed : m.armed t = some k) :
    disarm m.armed timers t = some k ∨ P k := by
  by_cases hmem : some t ∈ timers
  · exact Or.inr (hclear t k hmem harmed)
  · exact Or.inl (disarm_eq_some.mpr ⟨hmem, harmed⟩)

theorem Sound.ofRun (h : Sound m) {id : ℕ} {p : PendingRun} (hp : m.pending.lookup id = some p) {timers : List (Option ℕ)}
    (hsub : ∀ t, some t ∈ timers → some t ∈ p.timers) : ∀ t k, some t ∈ timers → m.armed t = some k → k.run = some id :=
  fun t k ht harmed => (h.clocks.ofRun id p t hp (hsub t ht)).2 k harmed

/-- Some of a run's timers are cleared, and one is set. -/
theorem Sound.rearm (h : Sound m) {id : ℕ} {p q : PendingRun} (hp : m.pending.lookup id = some p)
    {timers : List (Option ℕ)} (hclear : ∀ t k, some t ∈ timers → m.armed t = some k → k.run = some id) {kind : TimerKind}
    (hkind : kind.run = some id) (hq : ∀ t, some t ∈ q.timers → some t ∈ p.timers ∨ t = m.nextTimer) :
    Sound { (m.clearTimers timers).setTimer kind with pending := m.pending.insert id q } := by
  have hset := (h.clocks.clear timers).set kind
  have htidy : Tidy { (m.clearTimers timers).setTimer kind with pending := m.pending.insert id q } := h.tidy.change hp _ _ _
  have htimers : ∀ t k, m.armed t = some k → ((m.clearTimers timers).setTimer kind).armed t = some k ∨ k.run = some id := by
    intro t k harmed
    refine (disarm_or hclear harmed).imp_left fun hstill => ?_
    exact (@setTimer_old (m.clearTimers timers) kind t (h.clocks.below t k harmed)).trans hstill
  refine ⟨htidy, @Clocks.setPending _ hset id q fun t ht => ?_, @Covers.around _ h.covers id _ ?_ htidy.ids⟩
  · obtain hold | rfl := hq t ht
    · exact hset.ofRun id p t hp hold
    · obtain ⟨hlt, hnew⟩ := @setTimer_newest (m.clearTimers timers) kind
      exact ⟨hlt, fun k harmed => by rw [hnew k harmed, hkind]⟩
  · refine ⟨rfl, rfl, rfl, fun t k harmed => (htimers t k harmed).imp_right Or.inl, fun _ _ hmem => hmem, fun _ _ _ hs => hs,
      fun _ _ => rfl, fun other x hne hx => ?_, fun x c _ hc => ⟨h.covers.working hp, ?_⟩⟩
    · dsimp only at hx
      rwa [AList.lookup_insert_ne hne] at hx
    · refine (h.covers.covered id p c hp hc).mono rfl rfl (fun hmem => hmem) (fun _ hs => hs) (fun _ _ t ht => ?_) fun _ =>
        ⟨m.nextTimer, kind, Function.update_self _ _ _, hkind⟩
      obtain hsame | hrun := htimers t .boot ht
      · exact hsame
      · cases hrun

/-- A run is settled, and some of its timers cleared. -/
theorem Sound.leave (h : Sound m) {id : ℕ} {p : PendingRun} (hp : m.pending.lookup id = some p) {timers : List (Option ℕ)}
    (hclear : ∀ t k, some t ∈ timers → m.armed t = some k → k.run = some id) (outcome : Outcome) :
    Sound ({ m.clearTimers timers with pending := m.pending.erase id }.settle id outcome) := by
  have htidy : Tidy ({ m.clearTimers timers with pending := m.pending.erase id }.settle id outcome) :=
    ⟨(h.tidy.ids.clearTimers timers).settlePending hp _, h.tidy.waits.same rfl rfl rfl rfl⟩
  refine ⟨htidy, ((h.clocks.clear timers).erase id).same rfl rfl rfl rfl rfl, @Covers.around _ h.covers id _ ?_ htidy.ids⟩
  refine ⟨rfl, rfl, rfl, fun t k harmed => (disarm_or hclear harmed).imp_right Or.inl, fun _ _ hmem => hmem,
    fun _ _ _ hs => hs, fun _ _ => rfl, fun other x _ hx => lookup_of_erase hx, fun x c hx _ => ?_⟩
  change (m.pending.erase id).lookup id = some x at hx
  rw [AList.lookup_erase] at hx
  cases hx

/-- Timers that nothing in flight needs may be cleared. -/
theorem Sound.clear (h : Sound m) {id : ℕ} (hnone : m.pending.lookup id = none) {timers : List (Option ℕ)}
    (hclear : ∀ t k, some t ∈ timers → m.armed t = some k → k.run = some id ∨ ∃ other, k = .globals other) :
    Sound (m.clearTimers timers) := by
  refine ⟨h.tidy.clearTimers timers, h.clocks.clear timers, @Covers.around _ h.covers id _ ?_ (h.tidy.ids.clearTimers timers)⟩
  refine ⟨rfl, rfl, rfl, fun t k harmed => disarm_or hclear harmed, fun _ _ hmem => hmem, fun _ _ _ hs => hs, fun _ _ => rfl,
    fun _ _ _ hx => hx, fun x c hx _ => ?_⟩
  rw [show (m.clearTimers timers).pending = m.pending from rfl, hnone] at hx
  cases hx

/-- A call of `listGlobals` is answered. -/
theorem Sound.answer (h : Sound m) {id t : ℕ} (ht : m.pendingGlobals.lookup id = some t) :
    Sound ({ m with pendingGlobals := m.pendingGlobals.erase id }.settle id .resolved) := by
  have htidy : Tidy ({ m with pendingGlobals := m.pendingGlobals.erase id }.settle id .resolved) :=
    ⟨h.tidy.ids.answer ht, h.tidy.waits.same rfl rfl rfl rfl⟩
  refine ⟨htidy, (h.clocks.leaveGlobals fun _ _ hx => lookup_of_erase hx).same rfl rfl rfl rfl rfl, ?_⟩
  exact ⟨h.covers.live, h.covers.booting, fun other p c hp hc => (h.covers.covered other p c hp hc).mono rfl rfl
    (fun hmem => hmem) (fun _ hs => hs) (fun _ _ _ hboot => hboot) fun hown => hown⟩

theorem Sound.giveUp (h : Sound m) {id : ℕ} {p : PendingRun} (hp : m.pending.lookup id = some p)
    (timers : List (Option ℕ)) (reason : String) : Sound ((m.clearTimers timers).giveUp id p reason) :=
  ⟨(h.tidy.clearTimers timers).giveUp hp reason, (h.clocks.clear timers).giveUp id p reason,
    Covers.idle (fun _ => rfl) fun hworker => by cases hworker⟩

/-! ## Timers firing -/

/-- The worker's being ready or failing ends the wait for the boot timer. -/
theorem Covers.pastBoot (h : Covers m) (hover : m.ready = true ∨ m.readyError.isSome = true) {m' : Manager}
    (hworker : m'.worker = m.worker) (hready : m'.ready = m.ready) (herror : m'.readyError = m.readyError)
    (hwaiters : m'.readyWaiters = m.readyWaiters) (hsyncs : m'.pendingSyncs = m.pendingSyncs) (hcalls : m'.calls = m.calls)
    (hpending : m'.pending = m.pending)
    (hown : ∀ t k id, m.armed t = some k → k.run = some id → m'.armed t = some k) : Covers m' := by
  have hnot : m.ready = false → m.readyError = none → False := by
    intro hready herror
    rw [hready, herror] at hover
    simp at hover
  refine ⟨fun hnone => ?_, fun _ hfalse hnone => ?_, fun id p c hp hc => ?_⟩
  · rw [hpending]
    exact h.live (by rwa [← hworker])
  · exact (hnot (hready.symm.trans hfalse) (herror.symm.trans hnone)).elim
  · rw [hpending] at hp
    rw [hcalls] at hc
    refine (h.covered id p c hp hc).mono hready herror (fun hmem => by rwa [hwaiters]) (fun s hs => by rwa [hsyncs])
      (fun hfalse hnone => (hnot hfalse hnone).elim) ?_
    rintro ⟨t, k, harmed, hrun⟩
    exact ⟨t, k, hown t k id harmed hrun, hrun⟩

theorem disarm_own {timers : List (Option ℕ)} (hclear : ∀ t k, some t ∈ timers → m.armed t = some k → k = .boot) :
    ∀ t k id, m.armed t = some k → k.run = some id → disarm m.armed timers t = some k := by
  intro t k id harmed hrun
  obtain hstill | rfl := disarm_or hclear harmed
  · exact hstill
  · cases hrun

theorem Sound.bootTimeout (h : Sound m) {timers : List (Option ℕ)}
    (hclear : ∀ t k, some t ∈ timers → m.armed t = some k → k = .boot) : Sound (m.clearTimers timers).onBootTimeout := by
  have hclocks := (h.clocks.clear timers).noBoot
  refine ⟨(h.tidy.clearTimers timers).bootTimeout, ?_, ?_⟩
  · unfold Manager.onBootTimeout
    dsimp only
    split
    · exact hclocks
    · refine Clocks.respawn ?_
      exact (hclocks.rejectAll m.bootMessage).same rfl rfl rfl rfl rfl
  · unfold Manager.onBootTimeout
    dsimp only
    split
    · rename_i hover
      have hover : m.ready = true ∨ m.readyError.isSome = true := by rwa [← Bool.or_eq_true]
      exact h.covers.pastBoot hover rfl rfl rfl rfl rfl rfl rfl (disarm_own hclear)
    · exact covers_respawn _

theorem Sound.timeout (h : Sound m) {id : ℕ} {timers : List (Option ℕ)}
    (hclear : ∀ t k, some t ∈ timers → m.armed t = some k → k.run = some id) :
    Sound ((m.clearTimers timers).onTimeout id) := by
  unfold Manager.onTimeout
  split
  · rename_i hnone
    exact h.clear hnone fun t k ht harmed => Or.inl (hclear t k ht harmed)
  · rename_i p hp
    split
    · refine h.rearm hp hclear rfl fun t ht => ?_
      rw [mem_timers] at ht ⊢
      obtain ht | ht | ht := ht
      · exact Or.inl (Or.inl ht)
      · exact Or.inl (Or.inr (Or.inl ht))
      · exact Or.inr (Option.some_inj.mp ht).symm
    · unfold Manager.escalateToTerminate
      rw [hp]
      exact h.giveUp hp timers _

theorem Sound.escalate (h : Sound m) {id : ℕ} {timers : List (Option ℕ)}
    (hclear : ∀ t k, some t ∈ timers → m.armed t = some k → k.run = some id) :
    Sound ((m.clearTimers timers).escalateToTerminate id) := by
  unfold Manager.escalateToTerminate
  split
  · rename_i hnone
    exact h.clear hnone fun t k ht harmed => Or.inl (hclear t k ht harmed)
  · rename_i p hp
    exact h.giveUp hp timers _

theorem Sound.installTimeout (h : Sound m) {id : ℕ} {timers : List (Option ℕ)}
    (hclear : ∀ t k, some t ∈ timers → m.armed t = some k → k.run = some id) :
    Sound ((m.clearTimers timers).onInstallTimeout id) := by
  unfold Manager.onInstallTimeout
  split
  · rename_i hnone
    exact h.clear hnone fun t k ht harmed => Or.inl (hclear t k ht harmed)
  · rename_i p hp
    exact h.giveUp hp timers _

theorem Sound.globalsTimeout (h : Sound m) (id : ℕ) {timers : List (Option ℕ)}
    (hclear : ∀ t k, some t ∈ timers → m.armed t = some k → ∃ other, k = .globals other) :
    Sound ((m.clearTimers timers).onGlobalsTimeout id) := by
  have hcleared : Sound (m.clearTimers timers) :=
    h.clear h.tidy.ids.unknown.2.2.1 fun t k ht harmed => Or.inr (hclear t k ht harmed)
  unfold Manager.onGlobalsTimeout
  split
  · rename_i hasked
    obtain ⟨t, ht⟩ := Option.isSome_iff_exists.mp hasked
    exact hcleared.answer ht
  · exact hcleared

theorem Sound.fire (h : Sound m) (t : ℕ) : Sound (m.fire t) := by
  unfold Manager.fire
  split
  · exact h
  · rename_i kind hkind
    have hclear : ∀ t' k, some t' ∈ [some t] → m.armed t' = some k → k = kind := by
      intro t' k hmem harmed
      rw [Option.some_inj.mp (List.mem_singleton.mp hmem), hkind, Option.some_inj] at harmed
      exact harmed.symm
    cases kind with
    | boot => exact h.bootTimeout hclear
    | exec id => exact h.timeout fun t' k hmem harmed => by rw [hclear t' k hmem harmed]; rfl
    | install id => exact h.installTimeout fun t' k hmem harmed => by rw [hclear t' k hmem harmed]; rfl
    | fallback id => exact h.escalate fun t' k hmem harmed => by rw [hclear t' k hmem harmed]; rfl
    | globals id => exact h.globalsTimeout id fun t' k hmem harmed => ⟨id, hclear t' k hmem harmed⟩

/-! ## Messages of the worker -/

theorem Sound.watchdog (h : Sound m) (id : ℕ) : Sound (m.armInstallWatchdog id) := by
  unfold Manager.armInstallWatchdog
  split
  · exact h
  · rename_i p hp
    refine h.rearm hp (h.ofRun hp fun t ht => ?_) rfl fun t ht => ?_
    · exact mem_timers.mpr (Or.inr (Or.inl (List.mem_singleton.mp ht).symm))
    · rw [mem_timers] at ht ⊢
      obtain ht | ht | ht := ht
      · exact Or.inl (Or.inl ht)
      · exact Or.inr (Option.some_inj.mp ht).symm
      · exact Or.inl (Or.inr (Or.inr ht))

theorem disarm_disarm (armed : ℕ → Option TimerKind) (first second : List (Option ℕ)) :
    disarm (disarm armed first) second = disarm armed (first ++ second) := by
  funext t
  unfold disarm
  by_cases hfirst : some t ∈ first <;> by_cases hsecond : some t ∈ second <;> simp [hfirst, hsecond]

theorem pkgPhaseStart_eq {id : ℕ} {p : PendingRun} (hp : m.pending.lookup id = some p) :
    m.handlePkgPhaseStart id = { (m.clearTimers [p.timer, p.installWatchdog]).setTimer (.install id) with
      pending := m.pending.insert id { p with timer := none, installWatchdog := some m.nextTimer } } := by
  unfold Manager.handlePkgPhaseStart
  rw [hp]
  dsimp only
  unfold Manager.armInstallWatchdog
  dsimp only
  rw [AList.lookup_insert]
  dsimp only
  unfold Manager.clearTimers Manager.setTimer
  dsimp only
  rw [AList.insert_insert, disarm_disarm]
  rfl

theorem Sound.pkgPhaseStart (h : Sound m) (id : ℕ) : Sound (m.handlePkgPhaseStart id) := by
  cases hp : m.pending.lookup id with
  | none =>
    unfold Manager.handlePkgPhaseStart
    rw [hp]
    exact h
  | some p =>
    rw [pkgPhaseStart_eq hp]
    refine h.rearm hp (h.ofRun hp fun t ht => ?_) rfl fun t ht => ?_
    · rw [mem_timers]
      simp only [List.mem_cons, List.not_mem_nil, or_false] at ht
      exact ht.imp Eq.symm fun hwatchdog => Or.inl hwatchdog.symm
    · rw [mem_timers] at ht ⊢
      obtain ht | ht | ht := ht
      · cases ht
      · exact Or.inr (Option.some_inj.mp ht).symm
      · exact Or.inl (Or.inr (Or.inr ht))

theorem Sound.execStart (h : Sound m) (id : ℕ) : Sound (m.handleExecStart id) := by
  unfold Manager.handleExecStart
  split
  · exact h
  · rename_i p hp
    refine h.rearm hp (h.ofRun hp fun t ht => ?_) rfl fun t ht => ?_
    · rw [mem_timers]
      simp only [List.mem_cons, List.not_mem_nil, or_false] at ht
      exact ht.symm.imp Eq.symm fun hwatchdog => Or.inl hwatchdog.symm
    · rw [mem_timers] at ht ⊢
      obtain ht | ht | ht := ht
      · exact Or.inr (Option.some_inj.mp ht).symm
      · cases ht
      · exact Or.inl (Or.inr (Or.inr ht))

theorem Sound.done (h : Sound m) (id : ℕ) : Sound (m.handleDone id) := by
  unfold Manager.handleDone
  split
  · exact h
  · rename_i p hp
    exact h.leave hp (h.ofRun hp fun _ ht => ht) _

theorem Sound.globals (h : Sound m) (id : ℕ) : Sound (m.handleGlobals id) := by
  unfold Manager.handleGlobals
  split
  · exact h
  · rename_i t ht
    have hcleared : Sound (m.clearTimers [some t]) :=
      h.clear (h.tidy.ids.ofGlobals ht).1 fun t' k hmem harmed => by
        rw [Option.some_inj.mp (List.mem_singleton.mp hmem)] at harmed
        exact Or.inr ⟨id, (h.clocks.ofGlobals id t ht).2 k harmed⟩
    exact hcleared.answer ht

theorem Sound.syncAck (h : Sound m) (syncId : ℕ) : Sound (m.handleSyncAck syncId) := by
  have htidy := h.tidy.syncAck syncId
  unfold Manager.handleSyncAck at htidy ⊢
  split at htidy
  · exact h
  · rename_i id hid
    obtain ⟨-, c, hc, hack⟩ := h.tidy.waits.syncs syncId id hid
    have hphase := setPhase_call hc .synced
    refine ⟨htidy, h.clocks.same rfl rfl rfl rfl rfl, @Covers.around _ h.covers id _ ?_ htidy.ids⟩
    refine ⟨rfl, rfl, rfl, fun _ _ harmed => Or.inl harmed, fun _ _ hmem => hmem, fun s other hne hs => ?_,
      fun other hne => Function.update_of_ne hne _ _, fun _ _ _ hx => hx, fun p c' hp hc' => ?_⟩
    · refine (AList.lookup_erase_ne fun heq => hne ?_).trans hs
      rw [heq, hid, Option.some_inj] at hs
      exact hs.symm
    · obtain rfl : ⟨c.kind, .synced⟩ = c' := Option.some_inj.mp (hphase.symm.trans hc')
      have hcovered := h.covers.covered id p c hp hc
      rw [hack] at hcovered
      exact ⟨h.covers.working hp, hcovered.1⟩

theorem flush_call {id : ℕ} {c : Call} (hc : m.flush.calls id = some c) :
    ∃ d, m.calls id = some d ∧ (id ∈ m.readyWaiters ∧ c.phase = .woken m.readyError ∨ id ∉ m.readyWaiters ∧ c = d) := by
  change (if id ∈ m.readyWaiters then (m.calls id).map fun c => { c with phase := .woken m.readyError } else m.calls id) =
    some c at hc
  split at hc
  · rename_i hmem
    obtain ⟨d, hd, rfl⟩ := Option.map_eq_some_iff.mp hc
    exact ⟨d, hd, Or.inl ⟨hmem, rfl⟩⟩
  · rename_i hmem
    exact ⟨c, hc, Or.inr ⟨hmem, rfl⟩⟩

/-- The worker is ready, or failed: those that wait for it are woken. -/
theorem Sound.wake (h : Sound m) (hworker : m.worker.isSome = true) (ready : Bool) (error : Option String)
    (hready : m.ready = true → ready = true) (hover : ready = true ∨ error.isSome = true) :
    Sound { m.clearBootTimer with ready := ready, readyError := error }.flush := by
  have hwoken : Tidy { m.clearBootTimer with ready := ready, readyError := error } :=
    ⟨h.tidy.ids.same rfl rfl (fun _ => rfl) rfl rfl rfl, h.tidy.waits.same rfl rfl rfl rfl⟩
  refine ⟨hwoken.flush, h.clocks.clearBootTimer.same rfl rfl rfl rfl rfl, fun hnone => ?_, fun _ hfalse hnone => ?_,
    fun id p c hp hc => ?_⟩
  · have hnone : m.worker = none := hnone
    rw [hnone] at hworker
    cases hworker
  · have hfalse : ready = false := hfalse
    have hnone : error = none := hnone
    rw [hfalse, hnone] at hover
    simp at hover
  · obtain ⟨d, hd, ⟨hmem, hphase⟩ | ⟨hmem, rfl⟩⟩ := flush_call hc
    · rw [hphase]
      cases error with
      | some error => exact trivial
      | none =>
        obtain hready | herror := hover
        · exact hready
        · cases herror
    · have hcovered := h.covers.covered id p c hp hd
      have hown : ∀ t k id, m.armed t = some k → k.run = some id → disarm m.armed [m.bootTimer] t = some k :=
        disarm_own fun t k ht harmed => (h.clocks.ofBoot t (List.mem_singleton.mp ht).symm).2 k harmed
      cases hphase : c.phase with
      | waiting =>
        rw [hphase] at hcovered
        exact absurd hcovered.1 hmem
      | woken error' =>
        rw [hphase] at hcovered
        cases error' with
        | some error' => exact trivial
        | none => exact hready hcovered
      | policy =>
        rw [hphase] at hcovered
        exact hready hcovered
      | policySet =>
        rw [hphase] at hcovered
        exact hready hcovered
      | sync =>
        rw [hphase] at hcovered
        exact hready hcovered
      | synced =>
        rw [hphase] at hcovered
        exact hready hcovered
      | ack s =>
        rw [hphase] at hcovered
        exact ⟨hready hcovered.1, hcovered.2⟩
      | finished =>
        rw [hphase] at hcovered
        obtain ⟨t, k, harmed, hrun⟩ := hcovered
        exact ⟨t, k, hown t k id harmed hrun, hrun⟩

theorem Sound.workerError (h : Sound m) (message : String) : Sound (m.onWorkerError message) := by
  have hwoken : Clocks { m.clearBootTimer with readyError := some message }.flush :=
    h.clocks.clearBootTimer.same rfl rfl rfl rfl rfl
  exact ⟨(h.tidy.error (some message)).flush.rejectAll _, hwoken.rejectAll _,
    Covers.idle (fun _ => rfl) fun _ _ hnone => by cases hnone⟩

theorem Sound.message (h : Sound m) (hworker : m.worker.isSome = true) (message : Manager.Message) :
    Sound (m.onMessage message) := by
  cases message with
  | ready => exact h.wake hworker true m.readyError (fun _ => rfl) (Or.inl rfl)
  | loadError error => exact h.wake hworker m.ready (some error) (fun hready => hready) (Or.inr rfl)
  | pkgPhaseStart id => exact h.pkgPhaseStart id
  | execStart id => exact h.execStart id
  | installProgress id => exact h.watchdog id
  | done id => exact h.done id
  | globals id => exact h.globals id
  | syncAck syncId => exact h.syncAck syncId
  | error message => exact h.workerError message

/-! ## Calls -/

/-- A call goes on to what it waits on next. -/
theorem Sound.setPhase (h : Sound m) {id : ℕ} {phase : Phase} (htidy : Tidy (m.setPhase id phase))
    (hcovered : ∀ p, m.pending.lookup id = some p → Covered (m.setPhase id phase) id phase) : Sound (m.setPhase id phase) := by
  refine ⟨htidy, h.clocks.same rfl rfl rfl rfl rfl, @Covers.around _ h.covers id _ ?_ htidy.ids⟩
  refine ⟨rfl, rfl, rfl, fun _ _ harmed => Or.inl harmed, fun _ _ hmem => hmem, fun _ _ _ hs => hs,
    fun other hne => Function.update_of_ne hne _ _, fun _ _ _ hx => hx, fun p c hp hc => ?_⟩
  obtain ⟨d, hd, -⟩ := h.tidy.ids.inFlight id p hp
  obtain rfl : ⟨d.kind, phase⟩ = c := Option.some_inj.mp ((setPhase_call hd phase).symm.trans hc)
  exact ⟨h.covers.working hp, hcovered p hp⟩

theorem call_ensureWorker (kind : CallKind) (timeoutMs : ℕ) : m.call kind timeoutMs = m.ensureWorker.call kind timeoutMs := by
  cases hworker : m.worker with
  | some w =>
    rw [ensureWorker_eq]
    rw [hworker]
    rfl
  | none =>
    have hspawn : m.ensureWorker = m.spawn := if_neg (by rw [hworker]; decide)
    rw [hspawn, call_eq, call_eq]
    unfold Manager.waitForReady
    have hleft : (m.enroll kind timeoutMs).ensureWorker = (m.spawn.enroll kind timeoutMs) :=
      if_neg (show ¬ m.worker.isSome = true by rw [hworker]; decide)
    have hright : (m.spawn.enroll kind timeoutMs).ensureWorker = (m.spawn.enroll kind timeoutMs) := ensureWorker_eq rfl
    rw [hleft, hright]
    rfl

/-- A new call, with a worker there. -/
theorem around_call (h : Sound m) (hworker : m.worker.isSome = true) (kind : CallKind) (timeoutMs : ℕ) :
    Around m.nextCall m (m.call kind timeoutMs) := by
  have hensured : (m.enroll kind timeoutMs).ensureWorker = m.enroll kind timeoutMs := ensureWorker_eq hworker
  have hnew : (m.enroll kind timeoutMs).calls m.nextCall = some ⟨kind, .waiting⟩ := Function.update_self _ _ _
  have hold : ∀ phase other, other ≠ m.nextCall →
      ((m.enroll kind timeoutMs).setPhase m.nextCall phase).calls other = m.calls other := fun phase other hne =>
    (Function.update_of_ne hne _ _).trans (Function.update_of_ne hne _ _)
  have hothers : ∀ other p, other ≠ m.nextCall → (m.enroll kind timeoutMs).pending.lookup other = some p →
      m.pending.lookup other = some p := fun other p hne hp =>
    (enroll_pending hp).resolve_right fun hnext => hne hnext.1
  have hcall : ∀ {phase : Phase} {c : Call},
      ((m.enroll kind timeoutMs).setPhase m.nextCall phase).calls m.nextCall = some c → c.phase = phase := by
    intro phase c hc
    rw [setPhase_call hnew, Option.some_inj] at hc
    rw [← hc]
  rw [call_eq]
  unfold Manager.waitForReady
  rw [hensured]
  dsimp only
  split
  · rename_i hready
    refine ⟨rfl, rfl, rfl, fun _ _ harmed => Or.inl harmed, fun _ _ hmem => hmem, fun _ _ _ hs => hs, hold _, hothers,
      fun p c _ hc => ⟨hworker, ?_⟩⟩
    rw [hcall hc]
    exact hready
  · rename_i hready
    have hready : m.ready = false := Bool.eq_false_iff.mpr hready
    split
    · refine ⟨rfl, rfl, rfl, fun _ _ harmed => Or.inl harmed, fun _ _ hmem => hmem, fun _ _ _ hs => hs, hold _, hothers,
        fun p c _ hc => ⟨hworker, ?_⟩⟩
      rw [hcall hc]
      exact trivial
    · rename_i herror
      refine ⟨rfl, rfl, rfl, fun _ _ harmed => Or.inl harmed, fun _ _ hmem => List.mem_append_left _ hmem,
        fun _ _ _ hs => hs, hold _, hothers, fun p c _ hc => ⟨hworker, ?_⟩⟩
      rw [hcall hc]
      exact ⟨List.mem_append_right _ (List.mem_singleton.mpr rfl), hready, herror, h.covers.booting hworker hready herror⟩

theorem clocks_setPhase (h : Clocks m) (id : ℕ) (phase : Phase) : Clocks (m.setPhase id phase) := h.same rfl rfl rfl rfl rfl

theorem Clocks.enroll (h : Clocks m) (kind : CallKind) (timeoutMs : ℕ) : Clocks (m.enroll kind timeoutMs) := by
  unfold Manager.enroll
  split
  · exact h.same rfl rfl rfl rfl rfl
  · have hinsert := @Clocks.setPending m h m.nextCall ⟨none, timeoutMs, none, none, false⟩ fun t ht => by
      rw [mem_timers] at ht
      obtain ht | ht | ht := ht <;> cases ht
    exact hinsert.same rfl rfl rfl rfl rfl

theorem Clocks.waitForReady (h : Clocks m) (id : ℕ) : Clocks (m.waitForReady id) := by
  have hworker := h.ensureWorker
  unfold Manager.waitForReady
  dsimp only
  split
  · exact hworker.same rfl rfl rfl rfl rfl
  · split
    · exact hworker.same rfl rfl rfl rfl rfl
    · exact hworker.same rfl rfl rfl rfl rfl

theorem Sound.call (h : Sound m) (kind : CallKind) (timeoutMs : ℕ) : Sound (m.call kind timeoutMs) := by
  rw [call_ensureWorker]
  have hensured := h.ensureWorker
  have htidy := hensured.tidy.call kind timeoutMs
  refine ⟨htidy, ?_, hensured.covers.around (around_call hensured (ensureWorker_isSome m) kind timeoutMs) htidy.ids⟩
  rw [call_eq]
  exact (hensured.clocks.enroll kind timeoutMs).waitForReady _

theorem post_eq {id : ℕ} {p : PendingRun} (hp : m.pending.lookup id = some p) (hworker : m.worker.isSome = true) :
    m.post id = { (m.setPhase id .finished).setTimer (.exec id) with
      pending := m.pending.insert id { p with timer := some m.nextTimer }
      posted := m.posted ++ [(id, m.worker.getD 0)] } := by
  unfold Manager.post
  dsimp only
  rw [show (m.setPhase id .finished).pending.lookup id = some p from hp]
  dsimp only
  rw [ensureWorker_eq]
  · rfl
  · exact hworker

theorem Sound.post (h : Sound m) {id : ℕ} {c : Call} (hc : m.calls id = some c) (hfree : id ∉ m.readyWaiters)
    (hover : c.phase ≠ .finished) (hack : ∀ s, c.phase ≠ .ack s) : Sound (m.post id) := by
  have htidy := h.tidy.post hc hfree hover hack
  have hset := (clocks_setPhase h.clocks id .finished).set (.exec id)
  cases hp : m.pending.lookup id with
  | none =>
    have hdropped : m.post id = m.setPhase id .finished := by
      unfold Manager.post
      dsimp only
      rw [show (m.setPhase id .finished).pending.lookup id = none from hp]
    rw [hdropped] at htidy ⊢
    exact h.setPhase htidy fun p hin => by
      rw [hp] at hin
      cases hin
  | some p =>
    have hworking : m.worker.isSome = true := h.covers.working hp
    rw [post_eq hp hworking] at htidy ⊢
    have hinsert := @Clocks.setPending _ hset id { p with timer := some m.nextTimer } fun t ht => by
      rw [mem_timers] at ht
      obtain ht | ht | ht := ht
      · rw [← Option.some_inj.mp ht]
        obtain ⟨hlt, hkind⟩ := @setTimer_newest (m.setPhase id .finished) (.exec id)
        exact ⟨hlt, fun k harmed => by rw [hkind k harmed]; rfl⟩
      · exact hset.ofRun id p t hp (mem_timers.mpr (Or.inr (Or.inl ht)))
      · exact hset.ofRun id p t hp (mem_timers.mpr (Or.inr (Or.inr ht)))
    refine ⟨htidy, hinsert.same rfl rfl rfl rfl rfl, @Covers.around _ h.covers id _ ?_ htidy.ids⟩
    refine ⟨rfl, rfl, rfl, fun t k harmed => Or.inl ?_, fun _ _ hmem => hmem, fun _ _ _ hs => hs,
      fun other hne => Function.update_of_ne hne _ _, fun other x hne hx => ?_, fun x d _ hd => ⟨hworking, ?_⟩⟩
    · exact (setTimer_old (h.clocks.below t k harmed)).trans harmed
    · dsimp only at hx
      rwa [AList.lookup_insert_ne hne] at hx
    · obtain rfl : ⟨c.kind, .finished⟩ = d := Option.some_inj.mp ((setPhase_call hc .finished).symm.trans hd)
      exact ⟨m.nextTimer, .exec id, Function.update_self _ _ _, rfl⟩

theorem Sound.askGlobals (h : Sound m) {id : ℕ} {phase : Phase} (hc : m.calls id = some ⟨.listGlobals, phase⟩)
    (hfree : id ∉ m.readyWaiters) (hover : phase ≠ .finished) (hack : ∀ s, phase ≠ .ack s) : Sound (m.askGlobals id) := by
  have htidy := h.tidy.askGlobals hc hfree hover hack
  have hnone : m.pending.lookup id = none := Option.eq_none_iff_forall_not_mem.mpr fun p hp => by
    obtain ⟨d, hd, hkind⟩ := h.tidy.ids.inFlight id p hp
    rw [hc, Option.some_inj] at hd
    exact hkind (by rw [← hd])
  have hset := (clocks_setPhase h.clocks id .finished).set (.globals id)
  have hclocks : Clocks { (m.setPhase id .finished).setTimer (.globals id) with
      pendingGlobals := m.pendingGlobals.insert id m.nextTimer } := by
    refine ⟨hset.below, hset.ofRun, hset.ofBoot, fun other t ht => ?_⟩
    dsimp only at ht
    rw [lookup_insert_eq] at ht
    split at ht
    · rename_i heq
      rw [← Option.some_inj.mp ht, heq]
      exact @setTimer_newest (m.setPhase id .finished) (.globals id)
    · exact hset.ofGlobals other t ht
  refine ⟨htidy, hclocks.ensureWorker, Covers.ensureWorker ?_⟩
  refine ⟨h.covers.live, fun hworker hready herror => ?_, fun other p d hp hd => ?_⟩
  · obtain ⟨t, ht⟩ := h.covers.booting hworker hready herror
    exact ⟨t, (setTimer_old (h.clocks.below t _ ht)).trans ht⟩
  · have hne : other ≠ id := by
      rintro rfl
      rw [show m.pending.lookup other = some p from hp] at hnone
      cases hnone
    have hd : m.calls other = some d := (Function.update_of_ne hne _ _).symm.trans hd
    have hset : ∀ t k, m.armed t = some k → ((m.setPhase id .finished).setTimer (.globals id)).armed t = some k :=
      fun t k harmed => (setTimer_old (h.clocks.below t k harmed)).trans harmed
    refine (h.covers.covered other p d hp hd).mono rfl rfl (fun hmem => hmem) (fun _ hs => hs) (fun _ _ t => hset t _) ?_
    rintro ⟨t, k, harmed, hrun⟩
    exact ⟨t, k, hset t k harmed, hrun⟩

theorem Sound.failCall (h : Sound m) {id : ℕ} {c : Call} (hc : m.calls id = some c) (hfree : id ∉ m.readyWaiters)
    (hover : c.phase ≠ .finished) (hack : ∀ s, c.phase ≠ .ack s) (error : String) : Sound (m.failCall id c.kind error) := by
  have htidy := h.tidy.failCall hc hfree hover hack error
  have hphase := h.tidy.setPhase hc hfree hover hack .finished
  have hnone : m.pending.lookup id = none → Sound (m.setPhase id .finished) := fun hnone =>
    h.setPhase hphase fun p hp => by
      rw [hnone] at hp
      cases hp
  unfold Manager.failCall at htidy ⊢
  dsimp only at htidy ⊢
  revert htidy
  split
  · rename_i hkind
    intro htidy
    have hout : m.pending.lookup id = none := Option.eq_none_iff_forall_not_mem.mpr fun p hp => by
      obtain ⟨d, hd, hne⟩ := h.tidy.ids.inFlight id p hp
      rw [hc, Option.some_inj] at hd
      exact hne (by rw [← hd, hkind])
    have hset := hnone hout
    exact ⟨htidy, hset.clocks.same rfl rfl rfl rfl rfl, ⟨hset.covers.live, hset.covers.booting, fun other p d hp hd =>
      (hset.covers.covered other p d hp hd).mono rfl rfl (fun hmem => hmem) (fun _ hs => hs) (fun _ _ _ hboot => hboot)
        fun hown => hown⟩⟩
  · intro htidy
    split at htidy
    · rename_i hout
      exact hnone hout
    · rename_i p hp
      have hclear := @Sound.ofRun m h id p hp [p.timer] fun t ht => mem_timers.mpr (Or.inl (List.mem_singleton.mp ht).symm)
      refine ⟨htidy, (((h.clocks.clear [p.timer]).erase id).same rfl rfl rfl rfl rfl),
        @Covers.around _ h.covers id _ ?_ htidy.ids⟩
      refine ⟨rfl, rfl, rfl, fun t k harmed => (disarm_or hclear harmed).imp_right Or.inl, fun _ _ hmem => hmem,
        fun _ _ _ hs => hs, fun other hne => Function.update_of_ne hne _ _, fun other x _ hx => lookup_of_erase hx,
        fun x d hx _ => ?_⟩
      change (m.pending.erase id).lookup id = some x at hx
      rw [AList.lookup_erase] at hx
      cases hx

theorem Sound.goOn (h : Sound m) (id : ℕ) (workdir : Bool) : Sound (m.goOn id workdir) := by
  have htidy := h.tidy.goOn id workdir
  cases hc : m.calls id with
  | none =>
    unfold Manager.goOn
    rw [hc]
    exact h
  | some c =>
    have hfree : c.phase ≠ .waiting → id ∉ m.readyWaiters := h.tidy.waits.free hc
    unfold Manager.goOn at htidy ⊢
    rw [hc] at htidy ⊢
    dsimp only at htidy ⊢
    have hcovered := fun p hp => h.covers.covered id p c hp hc
    cases hphase : c.phase with
    | waiting =>
      rw [hphase] at htidy
      exact h
    | woken error =>
      rw [hphase] at htidy hcovered
      cases error with
      | some error => exact h.failCall hc (hfree (by rw [hphase]; simp)) (by rw [hphase]; simp) (by rw [hphase]; simp) error
      | none =>
        dsimp only at htidy ⊢
        by_cases hkind : c.kind = .listGlobals
        · rw [if_pos hkind]
          have hc : m.calls id = some ⟨.listGlobals, c.phase⟩ := by rw [← hkind, hc]
          exact h.askGlobals hc (hfree (by rw [hphase]; simp)) (by rw [hphase]; simp) (by rw [hphase]; simp)
        · rw [if_neg hkind] at htidy ⊢
          exact h.setPhase htidy hcovered
    | policySet =>
      rw [hphase] at htidy hcovered
      dsimp only at htidy ⊢
      by_cases hkind : c.kind = .run
      · rw [if_pos hkind] at htidy ⊢
        refine h.setPhase htidy fun p hp => ?_
        cases workdir <;> exact hcovered p hp
      · rw [if_neg hkind]
        exact h.post hc (hfree (by rw [hphase]; simp)) (by rw [hphase]; simp) (by rw [hphase]; simp)
    | synced => exact h.post hc (hfree (by rw [hphase]; simp)) (by rw [hphase]; simp) (by rw [hphase]; simp)
    | policy => exact h
    | sync => exact h
    | ack s => exact h
    | finished => exact h

theorem Sound.policyAnswered (h : Sound m) (id : ℕ) : Sound (m.policyAnswered id) := by
  have htidy := h.tidy.policyAnswered id
  unfold Manager.policyAnswered at htidy ⊢
  split at htidy
  · rename_i kind hc
    exact h.setPhase htidy fun p hp => h.covers.covered id p _ hp hc
  · exact h

theorem Sound.syncAnswered (h : Sound m) (id : ℕ) (post : Bool) : Sound (m.syncAnswered id post) := by
  have htidy := h.tidy.syncAnswered id post
  unfold Manager.syncAnswered at htidy ⊢
  split at htidy
  · rename_i kind hc
    cases post with
    | false => exact h.setPhase htidy fun p hp => h.covers.covered id p _ hp hc
    | true =>
      have hfree := h.tidy.waits.free hc (by simp)
      have hphase := h.tidy.setPhase hc hfree (by simp) (by simp) (.ack m.nextSync)
      refine ⟨htidy, Clocks.ensureWorker (h.clocks.same rfl rfl rfl rfl rfl), Covers.ensureWorker ?_⟩
      refine @Covers.around _ h.covers id _ ?_ (hphase.ids.same rfl rfl (fun _ => rfl) rfl rfl rfl)
      refine ⟨rfl, rfl, rfl, fun _ _ harmed => Or.inl harmed, fun _ _ hmem => hmem, fun s other _ hs => ?_,
        fun other hne => Function.update_of_ne hne _ _, fun _ _ _ hx => hx, fun p c hp hd => ?_⟩
      · refine (AList.lookup_insert_ne ?_).trans hs
        rintro rfl
        exact Nat.lt_irrefl _ (h.tidy.waits.syncs m.nextSync other hs).1
      · obtain rfl : ⟨kind, .ack m.nextSync⟩ = c := Option.some_inj.mp ((setPhase_call hc _).symm.trans hd)
        exact ⟨h.covers.working hp, h.covers.covered id p _ hp hc, AList.lookup_insert _⟩
  · exact h

/-! ## Runs -/

theorem Sound.act (h : Sound m) (a : Act) : Sound (act a m) := by
  cases a with
  | call kind timeoutMs => exact h.call kind timeoutMs
  | goOn id workdir => exact h.goOn id workdir
  | policyAnswered id => exact h.policyAnswered id
  | syncAnswered id post => exact h.syncAnswered id post
  | message message =>
    change Sound (if m.worker.isSome = true then m.onMessage message else m)
    split
    · rename_i hworker
      exact h.message hworker message
    · exact h
  | fire t => exact h.fire t
  | reset => exact ⟨h.tidy.respawn, h.clocks.respawn, covers_respawn m⟩

theorem sound_fresh (isolated : Bool) (bootTimeoutMs : ℕ) : Sound (fresh isolated bootTimeoutMs) :=
  ⟨tidy_fresh isolated bootTimeoutMs, ⟨by simp [fresh], by simp [fresh], by simp [fresh], by simp [fresh]⟩,
    Covers.idle (fun _ => rfl) fun hworker => by cases hworker⟩

theorem sound_after (isolated : Bool) (bootTimeoutMs : ℕ) (steps : List Act) : Sound (after isolated bootTimeoutMs steps) := by
  unfold after run
  exact List.foldlRecOn steps _ (sound_fresh isolated bootTimeoutMs) fun m h a _ => h.act a

theorem giveUp_settles (m : Manager) (id : ℕ) (p : PendingRun) (reason : String) :
    id ∈ (m.giveUp id p reason).settled.map Prod.fst := by
  refine List.mem_map.mpr ⟨(id, .rejected reason), ?_, rfl⟩
  exact List.mem_append_right _ (List.mem_singleton.mpr rfl)

/-- A timer of a run in flight fires: the run is settled, or interrupted, with the fallback armed. -/
theorem fire_run {t : ℕ} {k : TimerKind} {id : ℕ} {p : PendingRun} (harmed : m.armed t = some k) (hrun : k.run = some id)
    (hp : m.pending.lookup id = some p) :
    id ∈ (m.fire t).settled.map Prod.fst ∨ k = .exec id ∧ ∃ t', (m.fire t).armed t' = some (.fallback id) := by
  have hp' : (m.clearTimers [some t]).pending.lookup id = some p := hp
  unfold Manager.fire
  rw [harmed]
  cases k with
  | boot => cases hrun
  | globals other => cases hrun
  | exec other =>
    obtain rfl : other = id := Option.some_inj.mp hrun
    dsimp only
    unfold Manager.onTimeout
    rw [hp']
    dsimp only
    split
    · exact Or.inr ⟨rfl, (m.clearTimers [some t]).nextTimer, Function.update_self _ _ _⟩
    · refine Or.inl ?_
      unfold Manager.escalateToTerminate
      rw [hp']
      exact giveUp_settles _ _ _ _
  | install other =>
    obtain rfl : other = id := Option.some_inj.mp hrun
    dsimp only
    unfold Manager.onInstallTimeout
    rw [hp']
    exact Or.inl (giveUp_settles _ _ _ _)
  | fallback other =>
    obtain rfl : other = id := Option.some_inj.mp hrun
    dsimp only
    unfold Manager.escalateToTerminate
    rw [hp']
    exact Or.inl (giveUp_settles _ _ _ _)

/-- The boot timer fires before the worker is ready or has failed: no run stays in flight. -/
theorem fire_boot {t : ℕ} (harmed : m.armed t = some .boot) (hready : m.ready = false) (herror : m.readyError = none)
    (id : ℕ) : (m.fire t).pending.lookup id = none := by
  have hnot : ¬ ((m.clearTimers [some t]).ready || (m.clearTimers [some t]).readyError.isSome) = true := by
    rw [show (m.clearTimers [some t]).ready = false from hready, show (m.clearTimers [some t]).readyError = none from herror]
    decide
  unfold Manager.fire
  rw [harmed]
  dsimp only
  unfold Manager.onBootTimeout
  rw [if_neg hnot]
  rfl

theorem respawn_posted (m : Manager) : m.respawn.posted = m.posted := rfl

theorem giveUp_posted (m : Manager) (id : ℕ) (p : PendingRun) (reason : String) :
    (m.giveUp id p reason).posted = m.posted := by
  unfold Manager.giveUp Manager.settle
  exact respawn_posted _

theorem escalate_posted (m : Manager) (id : ℕ) : (m.escalateToTerminate id).posted = m.posted := by
  unfold Manager.escalateToTerminate
  split
  · rfl
  · exact giveUp_posted m id _ _

theorem installTimeout_posted (m : Manager) (id : ℕ) : (m.onInstallTimeout id).posted = m.posted := by
  unfold Manager.onInstallTimeout
  split
  · rfl
  · exact giveUp_posted m id _ _

theorem bootTimeout_posted (m : Manager) : m.onBootTimeout.posted = m.posted := by
  unfold Manager.onBootTimeout
  generalize m.bootMessage = message
  dsimp only
  split
  · rfl
  · rw [respawn_posted]
    rfl

theorem fire_posted (m : Manager) (t : ℕ) : (m.fire t).posted = m.posted := by
  unfold Manager.fire
  split
  · rfl
  · rename_i kind _
    cases kind with
    | boot => exact bootTimeout_posted _
    | exec id =>
      dsimp only
      unfold Manager.onTimeout
      split
      · rfl
      · split
        · rfl
        · exact escalate_posted _ id
    | install id => exact installTimeout_posted _ id
    | fallback id => exact escalate_posted _ id
    | globals id =>
      dsimp only
      unfold Manager.onGlobalsTimeout
      split <;> rfl

theorem watchdog_posted (m : Manager) (id : ℕ) : (m.armInstallWatchdog id).posted = m.posted := by
  unfold Manager.armInstallWatchdog
  split <;> rfl

theorem message_posted (m : Manager) (message : Manager.Message) : (m.onMessage message).posted = m.posted := by
  cases message with
  | ready => rfl
  | loadError error => rfl
  | pkgPhaseStart id =>
    change (m.handlePkgPhaseStart id).posted = m.posted
    unfold Manager.handlePkgPhaseStart
    split
    · rfl
    · exact watchdog_posted _ id
  | execStart id =>
    change (m.handleExecStart id).posted = m.posted
    unfold Manager.handleExecStart
    split <;> rfl
  | installProgress id => exact watchdog_posted m id
  | done id =>
    change (m.handleDone id).posted = m.posted
    unfold Manager.handleDone
    split <;> rfl
  | globals id =>
    change (m.handleGlobals id).posted = m.posted
    unfold Manager.handleGlobals
    split <;> rfl
  | syncAck syncId =>
    change (m.handleSyncAck syncId).posted = m.posted
    unfold Manager.handleSyncAck
    split <;> rfl
  | error message =>
    change (m.onWorkerError message).posted = m.posted
    unfold Manager.onWorkerError Manager.rejectAllPending
    rfl

theorem call_posted (m : Manager) (kind : CallKind) (timeoutMs : ℕ) : (m.call kind timeoutMs).posted = m.posted := by
  rw [call_eq]
  unfold Manager.waitForReady
  dsimp only
  split
  · exact ensureWorker_posted _
  · split <;> exact ensureWorker_posted _

theorem failCall_posted (m : Manager) (id : ℕ) (kind : CallKind) (error : String) :
    (m.failCall id kind error).posted = m.posted := by
  unfold Manager.failCall
  dsimp only
  split
  · rfl
  · split <;> rfl

/-- Code is posted to a worker that is there and ready, for a run that is not settled. -/
def PostsToReady (m : Manager) (a : Act) : Prop :=
  ∀ id w, (id, w) ∈ (Calls.act a m).posted → (id, w) ∈ m.posted ∨
    m.worker = some w ∧ m.ready = true ∧ id ∉ m.settled.map Prod.fst

theorem post_posted (h : Sound m) {id : ℕ} {c : Call} (hc : m.calls id = some c)
    (hready : Covered m id c.phase → m.ready = true) {other w : ℕ} (hposted : (other, w) ∈ (m.post id).posted) :
    (other, w) ∈ m.posted ∨ m.worker = some w ∧ m.ready = true ∧ other ∉ m.settled.map Prod.fst := by
  cases hp : m.pending.lookup id with
  | none =>
    unfold Manager.post at hposted
    dsimp only at hposted
    rw [show (m.setPhase id .finished).pending.lookup id = none from hp] at hposted
    exact Or.inl hposted
  | some p =>
    have hworking := h.covers.working hp
    rw [post_eq hp hworking] at hposted
    obtain hold | hnew := List.mem_append.mp hposted
    · exact Or.inl hold
    · obtain ⟨rfl, rfl⟩ := Prod.mk.inj (List.mem_singleton.mp hnew)
      refine Or.inr ⟨?_, hready (h.covers.covered _ p c hp hc), h.tidy.ids.unsettled _ p hp⟩
      obtain ⟨worker, hworker⟩ := Option.isSome_iff_exists.mp hworking
      rw [hworker]
      rfl

theorem Sound.posts (h : Sound m) (a : Act) : PostsToReady m a := by
  have hsame : (Calls.act a m).posted = m.posted → PostsToReady m a := fun heq id w hposted => Or.inl (by rwa [heq] at hposted)
  cases a with
  | call kind timeoutMs => exact hsame (call_posted m kind timeoutMs)
  | policyAnswered id =>
    refine hsame ?_
    change (m.policyAnswered id).posted = m.posted
    unfold Manager.policyAnswered
    split <;> rfl
  | syncAnswered id post =>
    refine hsame ?_
    change (m.syncAnswered id post).posted = m.posted
    unfold Manager.syncAnswered
    split
    · split
      · exact ensureWorker_posted _
      · rfl
    · rfl
  | message message =>
    refine hsame ?_
    change (if m.worker.isSome = true then m.onMessage message else m).posted = m.posted
    split
    · exact message_posted m message
    · rfl
  | fire t => exact hsame (fire_posted m t)
  | reset => exact hsame rfl
  | goOn id workdir =>
    intro other w hposted
    change (other, w) ∈ (m.goOn id workdir).posted at hposted
    unfold Manager.goOn at hposted
    split at hposted
    · exact Or.inl hposted
    · rename_i c hc
      split at hposted
      · rw [failCall_posted] at hposted
        exact Or.inl hposted
      · split at hposted
        · unfold Manager.askGlobals at hposted
          rw [ensureWorker_posted] at hposted
          exact Or.inl hposted
        · exact Or.inl hposted
      · rename_i hphase
        split at hposted
        · exact Or.inl hposted
        · exact post_posted h hc (fun hcovered => by rwa [hphase] at hcovered) hposted
      · rename_i hphase
        exact post_posted h hc (fun hcovered => by rwa [hphase] at hcovered) hposted
      · exact Or.inl hposted

end Haruspex.Sandbox.Calls
