import Haruspex.Sandbox.Calls

/-! Calls of the sandbox's worker are settled at most once, and none in flight is left without something to wait on. -/
namespace Haruspex.Sandbox.Calls
open KeyedMap Runs
set_option autoImplicit false

/-! ## Invariants -/

/-- The calls made, in flight, settled and posted. -/
structure Ids (m : Manager) : Prop where
  below : ∀ id, m.nextCall ≤ id → m.calls id = none
  inFlight : ∀ id p, m.pending.lookup id = some p → ∃ c, m.calls id = some c ∧ c.kind ≠ .listGlobals
  asked : ∀ id t, m.pendingGlobals.lookup id = some t → m.calls id = some ⟨.listGlobals, .finished⟩
  done : ∀ id ∈ m.settled.map Prod.fst, ∃ c, m.calls id = some c ∧ (c.kind = .listGlobals → c.phase = .finished)
  unsettled : ∀ id p, m.pending.lookup id = some p → id ∉ m.settled.map Prod.fst
  unanswered : ∀ id t, m.pendingGlobals.lookup id = some t → id ∉ m.settled.map Prod.fst
  once : (m.settled.map Prod.fst).Nodup
  accounted : ∀ id c, m.calls id = some c → c.kind ≠ .listGlobals →
    id ∈ m.settled.map Prod.fst ∨ (m.pending.lookup id).isSome = true
  sent : ∀ id ∈ m.posted.map Prod.fst, ∃ c, m.calls id = some c ∧ c.phase = .finished
  sentOnce : (m.posted.map Prod.fst).Nodup

/-- What the worker is waited on for. -/
structure Waits (m : Manager) : Prop where
  waiters : ∀ id ∈ m.readyWaiters, ∃ c, m.calls id = some c ∧ c.phase = .waiting
  syncs : ∀ s id, m.pendingSyncs.lookup s = some id → s < m.nextSync ∧ ∃ c, m.calls id = some c ∧ c.phase = .ack s

structure Tidy (m : Manager) : Prop where
  ids : Ids m
  waits : Waits m

variable {m : Manager}

/-! ## Phases -/

/-- Calls go on, but for those that are over. -/
def Rephased (calls calls' : ℕ → Option Call) : Prop :=
  ∀ id, calls' id = calls id ∨ ∃ c phase, calls id = some c ∧ c.phase ≠ .finished ∧ calls' id = some ⟨c.kind, phase⟩

theorem Rephased.call {calls calls' : ℕ → Option Call} (h : Rephased calls calls') {id : ℕ} {c : Call}
    (hc : calls id = some c) : ∃ c', calls' id = some c' ∧ c'.kind = c.kind ∧ (c.phase = .finished → c' = c) := by
  obtain hsame | ⟨d, phase, hd, hne, hnew⟩ := h id
  · exact ⟨c, hsame.trans hc, rfl, fun _ => rfl⟩
  · rw [hc, Option.some_inj] at hd
    subst hd
    exact ⟨_, hnew, rfl, fun hover => absurd hover hne⟩

theorem Rephased.back {calls calls' : ℕ → Option Call} (h : Rephased calls calls') {id : ℕ} {c' : Call}
    (hc : calls' id = some c') : ∃ c, calls id = some c ∧ c'.kind = c.kind := by
  obtain hsame | ⟨d, phase, hd, -, hnew⟩ := h id
  · exact ⟨c', hsame.symm.trans hc, rfl⟩
  · rw [hnew, Option.some_inj] at hc
    exact ⟨d, hd, by rw [← hc]⟩

theorem Ids.rephase (h : Ids m) {calls' : ℕ → Option Call} (hcalls : Rephased m.calls calls') :
    Ids { m with calls := calls' } where
  below id hid := by
    obtain hsame | ⟨c, phase, hc, -⟩ := hcalls id
    · exact hsame.trans (h.below id hid)
    · rw [h.below id hid] at hc
      cases hc
  inFlight id p hp := by
    obtain ⟨c, hc, hkind⟩ := h.inFlight id p hp
    obtain ⟨c', hc', hsame, -⟩ := hcalls.call hc
    exact ⟨c', hc', by rwa [hsame]⟩
  asked id t ht := by
    obtain ⟨c', hc', -, hover⟩ := hcalls.call (h.asked id t ht)
    rw [hover rfl] at hc'
    exact hc'
  done id hid := by
    obtain ⟨c, hc, hkind⟩ := h.done id hid
    obtain ⟨c', hc', hsame, hover⟩ := hcalls.call hc
    refine ⟨c', hc', fun hglobals => ?_⟩
    have hdone := hkind (hsame.symm.trans hglobals)
    rw [hover hdone]
    exact hdone
  unsettled := h.unsettled
  unanswered := h.unanswered
  once := h.once
  accounted id c' hc' hkind := by
    obtain ⟨c, hc, hsame⟩ := hcalls.back hc'
    exact h.accounted id c hc (by rwa [← hsame])
  sent id hid := by
    obtain ⟨c, hc, hover⟩ := h.sent id hid
    obtain ⟨c', hc', -, hsame⟩ := hcalls.call hc
    exact ⟨c', hc', by rw [hsame hover, hover]⟩
  sentOnce := h.sentOnce

theorem rephased_setPhase {id : ℕ} {c : Call} (hc : m.calls id = some c) (hphase : c.phase ≠ .finished) (phase : Phase) :
    Rephased m.calls (m.setPhase id phase).calls := by
  intro other
  by_cases heq : other = id
  · rw [heq]
    exact Or.inr ⟨c, phase, hc, hphase, (Function.update_self _ _ _).trans (by rw [hc]; rfl)⟩
  · exact Or.inl (Function.update_of_ne heq _ _)

/-! ## Settling -/

theorem mem_keys {V : Type} {d : Dict ℕ V} {id : ℕ} : id ∈ d.entries.map Sigma.fst ↔ ∃ v, d.lookup id = some v := by
  constructor
  · intro hmem
    obtain ⟨⟨key, v⟩, he, rfl⟩ := List.mem_map.mp hmem
    exact ⟨v, mem_entries.mp he⟩
  · rintro ⟨v, hv⟩
    exact List.mem_map.mpr ⟨⟨id, v⟩, mem_entries.mpr hv, rfl⟩

/-- Some calls leave what is in flight as they are settled. -/
theorem Ids.leave (h : Ids m) {pending : Dict ℕ PendingRun} {pendingGlobals : Dict ℕ ℕ} {outcomes : List (ℕ × Outcome)}
    (honce : (outcomes.map Prod.fst).Nodup)
    (hfrom : ∀ id ∈ outcomes.map Prod.fst, id ∉ m.settled.map Prod.fst ∧
      ∃ c, m.calls id = some c ∧ (c.kind = .listGlobals → c.phase = .finished))
    (hpending : ∀ id, pending.lookup id = if id ∈ outcomes.map Prod.fst then none else m.pending.lookup id)
    (hglobals : ∀ id, pendingGlobals.lookup id =
      if id ∈ outcomes.map Prod.fst then none else m.pendingGlobals.lookup id) :
    Ids { m with pending := pending, pendingGlobals := pendingGlobals, settled := m.settled ++ outcomes } := by
  have hsettled : ∀ id, id ∈ (m.settled ++ outcomes).map Prod.fst ↔
      id ∈ m.settled.map Prod.fst ∨ id ∈ outcomes.map Prod.fst := by
    intro id
    rw [List.map_append, List.mem_append]
  have hstays : ∀ id p, pending.lookup id = some p → id ∉ outcomes.map Prod.fst ∧ m.pending.lookup id = some p := by
    intro id p hp
    rw [hpending] at hp
    split at hp
    · cases hp
    · rename_i hnot
      exact ⟨hnot, hp⟩
  have hwaits : ∀ id t, pendingGlobals.lookup id = some t → id ∉ outcomes.map Prod.fst ∧ m.pendingGlobals.lookup id = some t := by
    intro id t ht
    rw [hglobals] at ht
    split at ht
    · cases ht
    · rename_i hnot
      exact ⟨hnot, ht⟩
  refine ⟨h.below, fun id p hp => h.inFlight id p (hstays id p hp).2, fun id t ht => h.asked id t (hwaits id t ht).2,
    fun id hid => ?_, fun id p hp hmem => ?_, fun id t ht hmem => ?_, ?_, fun id c hc hkind => ?_, h.sent, h.sentOnce⟩
  · obtain hid | hid := (hsettled id).mp hid
    · exact h.done id hid
    · exact (hfrom id hid).2
  · obtain hmem | hmem := (hsettled id).mp hmem
    · exact h.unsettled id p (hstays id p hp).2 hmem
    · exact (hstays id p hp).1 hmem
  · obtain hmem | hmem := (hsettled id).mp hmem
    · exact h.unanswered id t (hwaits id t ht).2 hmem
    · exact (hwaits id t ht).1 hmem
  · dsimp only
    rw [List.map_append]
    exact h.once.append honce fun id hsettled hout => (hfrom id hout).1 hsettled
  · rw [hsettled]
    obtain hold | hin := h.accounted id c hc hkind
    · exact Or.inl (Or.inl hold)
    · by_cases hout : id ∈ outcomes.map Prod.fst
      · exact Or.inl (Or.inr hout)
      · refine Or.inr ?_
        dsimp only
        rwa [hpending, if_neg hout]

theorem Ids.ofPending (h : Ids m) {id : ℕ} {p : PendingRun} (hp : m.pending.lookup id = some p) :
    m.pendingGlobals.lookup id = none ∧ id ∉ m.settled.map Prod.fst ∧
      ∃ c, m.calls id = some c ∧ (c.kind = .listGlobals → c.phase = .finished) := by
  obtain ⟨c, hc, hkind⟩ := h.inFlight id p hp
  refine ⟨?_, h.unsettled id p hp, c, hc, fun hglobals => absurd hglobals hkind⟩
  refine Option.eq_none_iff_forall_not_mem.mpr fun t ht => hkind ?_
  have hasked := h.asked id t ht
  rw [hc, Option.some_inj] at hasked
  rw [hasked]

theorem Ids.ofGlobals (h : Ids m) {id t : ℕ} (ht : m.pendingGlobals.lookup id = some t) :
    m.pending.lookup id = none ∧ id ∉ m.settled.map Prod.fst ∧
      ∃ c, m.calls id = some c ∧ (c.kind = .listGlobals → c.phase = .finished) := by
  refine ⟨?_, h.unanswered id t ht, _, h.asked id t ht, fun _ => rfl⟩
  refine Option.eq_none_iff_forall_not_mem.mpr fun p hp => ?_
  have hnone := (h.ofPending hp).1
  rw [ht] at hnone
  cases hnone

theorem Ids.settlePending (h : Ids m) {id : ℕ} {p : PendingRun} (hp : m.pending.lookup id = some p) (outcome : Outcome) :
    Ids ({ m with pending := m.pending.erase id }.settle id outcome) := by
  refine @Ids.leave m h _ _ [(id, outcome)] (List.nodup_singleton id) (fun other hother => ?_) (fun other => ?_) fun other => ?_
  · rw [List.mem_singleton.mp hother]
    exact (h.ofPending hp).2
  · simp [lookup_erase_eq]
  · split
    · rename_i hmem
      rw [List.mem_singleton.mp hmem]
      exact (h.ofPending hp).1
    · rfl

/-- A call of `listGlobals` is answered. -/
theorem Ids.answer (h : Ids m) {id t : ℕ} (ht : m.pendingGlobals.lookup id = some t) :
    Ids ({ m with pendingGlobals := m.pendingGlobals.erase id }.settle id .resolved) := by
  refine @Ids.leave m h _ _ [(id, .resolved)] (List.nodup_singleton id) (fun other hother => ?_) (fun other => ?_)
    fun other => ?_
  · rw [List.mem_singleton.mp hother]
    exact (h.ofGlobals ht).2
  · split
    · rename_i hmem
      rw [List.mem_singleton.mp hmem]
      exact (h.ofGlobals ht).1
    · rfl
  · simp [lookup_erase_eq]

theorem settled_entries {V : Type} (d : Dict ℕ V) (outcome : Outcome) :
    (d.entries.map fun e => (e.1, outcome)).map Prod.fst = d.entries.map Sigma.fst := by
  rw [List.map_map]
  rfl

theorem lookup_all {V W : Type} {d : Dict ℕ V} {d' : Dict ℕ W} (hapart : ∀ id v, d.lookup id = some v → d'.lookup id = none)
    (id : ℕ) : d'.lookup id = if id ∈ d.entries.map Sigma.fst then none else d'.lookup id := by
  split
  · rename_i hmem
    obtain ⟨v, hv⟩ := mem_keys.mp hmem
    exact hapart id v hv
  · rfl

theorem lookup_empty {V : Type} (d : Dict ℕ V) (id : ℕ) :
    (∅ : Dict ℕ V).lookup id = if id ∈ d.entries.map Sigma.fst then none else d.lookup id := by
  split
  · rfl
  · rename_i hnot
    refine (Option.eq_none_iff_forall_not_mem.mpr fun v hv => hnot ?_).symm
    exact mem_keys.mpr ⟨v, hv⟩

/-- Nothing that the calls are known by is changed. -/
theorem Ids.same (h : Ids m) {m' : Manager} (hcalls : m'.calls = m.calls) (hnext : m'.nextCall = m.nextCall)
    (hpending : ∀ id, (m'.pending.lookup id).isSome = (m.pending.lookup id).isSome)
    (hglobals : m'.pendingGlobals = m.pendingGlobals) (hsettled : m'.settled = m.settled) (hposted : m'.posted = m.posted) :
    Ids m' := by
  have hheld : ∀ id p, m'.pending.lookup id = some p → ∃ q, m.pending.lookup id = some q := by
    intro id p hp
    refine Option.isSome_iff_exists.mp ?_
    rw [← hpending, hp]
    rfl
  refine ⟨fun id hid => ?_, fun id p hp => ?_, fun id t ht => ?_, fun id hid => ?_, fun id p hp => ?_, fun id t ht => ?_, ?_,
    fun id c hc hkind => ?_, fun id hid => ?_, ?_⟩
  · rw [hcalls]
    exact h.below id (by rwa [← hnext])
  · obtain ⟨q, hq⟩ := hheld id p hp
    rw [hcalls]
    exact h.inFlight id q hq
  · rw [hcalls]
    exact h.asked id t (by rwa [← hglobals])
  · rw [hcalls]
    exact h.done id (by rwa [← hsettled])
  · obtain ⟨q, hq⟩ := hheld id p hp
    rw [hsettled]
    exact h.unsettled id q hq
  · rw [hsettled]
    exact h.unanswered id t (by rwa [← hglobals])
  · rw [hsettled]
    exact h.once
  · rw [hsettled, hpending]
    exact h.accounted id c (by rwa [← hcalls]) hkind
  · rw [hcalls]
    exact h.sent id (by rwa [← hposted])
  · rw [hposted]
    exact h.sentOnce

theorem Ids.clearTimers (h : Ids m) (timers : List (Option ℕ)) : Ids (m.clearTimers timers) :=
  h.same rfl rfl (fun _ => rfl) rfl rfl rfl

theorem Ids.rejectAll (h : Ids m) (reason : String) : Ids (m.rejectAllPending reason) := by
  have hcleared := h.clearTimers (m.pending.entries.flatMap fun e => e.2.timers)
  have hleave := @Ids.leave _ hcleared ∅ m.pendingGlobals (m.pending.entries.map fun e => (e.1, .rejected reason))
  rw [settled_entries] at hleave
  refine hleave m.pending.nodupKeys (fun id hid => ?_) (lookup_empty m.pending) (lookup_all fun id p hp => (h.ofPending hp).1)
  obtain ⟨p, hp⟩ := mem_keys.mp hid
  exact (h.ofPending hp).2

theorem Ids.resolveGlobals (h : Ids m) : Ids m.resolveGlobals := by
  have hcleared := h.clearTimers (m.pendingGlobals.entries.map fun e => some e.2)
  have hleave := @Ids.leave _ hcleared m.pending ∅ (m.pendingGlobals.entries.map fun e => (e.1, .resolved))
  rw [settled_entries] at hleave
  refine hleave m.pendingGlobals.nodupKeys (fun id hid => ?_) (lookup_all fun id t ht => (h.ofGlobals ht).1)
    (lookup_empty m.pendingGlobals)
  obtain ⟨t, ht⟩ := mem_keys.mp hid
  exact (h.ofGlobals ht).2

/-- Settled in another order. -/
theorem Ids.reorder (h : Ids m) {settled : List (ℕ × Outcome)} (hperm : settled.Perm m.settled) :
    Ids { m with settled := settled } := by
  have hkeys : (settled.map Prod.fst).Perm (m.settled.map Prod.fst) := hperm.map Prod.fst
  exact ⟨h.below, h.inFlight, h.asked, fun id hid => h.done id (hkeys.mem_iff.mp hid),
    fun id p hp hid => h.unsettled id p hp (hkeys.mem_iff.mp hid),
    fun id t ht hid => h.unanswered id t ht (hkeys.mem_iff.mp hid), hkeys.nodup_iff.mpr h.once,
    fun id c hc hkind => (h.accounted id c hc hkind).imp_left hkeys.mem_iff.mpr, h.sent, h.sentOnce⟩

/-! ## The worker -/

theorem Waits.same (h : Waits m) {m' : Manager} (hcalls : m'.calls = m.calls) (hwaiters : m'.readyWaiters = m.readyWaiters)
    (hsyncs : m'.pendingSyncs = m.pendingSyncs) (hnext : m'.nextSync = m.nextSync) : Waits m' := by
  refine ⟨fun id hid => ?_, fun s id hs => ?_⟩
  · rw [hcalls]
    exact h.waiters id (by rwa [← hwaiters])
  · rw [hcalls, hnext]
    exact h.syncs s id (by rwa [← hsyncs])

theorem Tidy.spawn (h : Tidy m) : Tidy m.spawn :=
  ⟨h.ids.same rfl rfl (fun _ => rfl) rfl rfl rfl, h.waits.same rfl rfl rfl rfl⟩

theorem Tidy.ensureWorker (h : Tidy m) : Tidy m.ensureWorker := by
  unfold Manager.ensureWorker
  split
  · exact h
  · exact h.spawn

theorem Tidy.clearBootTimer (h : Tidy m) : Tidy m.clearBootTimer :=
  ⟨h.ids.same rfl rfl (fun _ => rfl) rfl rfl rfl, h.waits.same rfl rfl rfl rfl⟩

/-- Calls go on from one phase to others. -/
theorem rephased_of {calls : ℕ → Option Call} {which : ℕ → Prop} [DecidablePred which] {phase : Phase}
    (hsome : ∀ id, which id → ∃ c, calls id = some c ∧ c.phase ≠ .finished) :
    Rephased calls fun id => if which id then (calls id).map fun c => { c with phase := phase } else calls id := by
  intro id
  by_cases hid : which id
  · obtain ⟨c, hc, hphase⟩ := hsome id hid
    refine Or.inr ⟨c, phase, hc, hphase, ?_⟩
    dsimp only
    rw [if_pos hid, hc]
    rfl
  · exact Or.inl (if_neg hid)

theorem Tidy.flush (h : Tidy m) : Tidy m.flush := by
  have hphase : Rephased m.calls m.flush.calls := rephased_of fun id hid => by
    obtain ⟨c, hc, hwaiting⟩ := h.waits.waiters id hid
    exact ⟨c, hc, by rw [hwaiting]; decide⟩
  refine ⟨(h.ids.rephase hphase).same rfl rfl (fun _ => rfl) rfl rfl rfl, fun id hid => (List.not_mem_nil hid).elim,
    fun s id hs => ?_⟩
  obtain ⟨hlt, c, hc, hack⟩ := h.waits.syncs s id hs
  refine ⟨hlt, c, ?_, hack⟩
  refine (if_neg fun hid => ?_).trans hc
  obtain ⟨d, hd, hwaiting⟩ := h.waits.waiters id hid
  rw [hc, Option.some_inj] at hd
  rw [← hd, hack] at hwaiting
  cases hwaiting

theorem Waits.ofSync (h : Waits m) {id : ℕ} (hid : id ∈ m.pendingSyncs.entries.map Sigma.snd) :
    ∃ c s, m.calls id = some c ∧ c.phase = .ack s := by
  obtain ⟨⟨s, other⟩, he, rfl⟩ := List.mem_map.mp hid
  obtain ⟨-, c, hc, hack⟩ := h.syncs s other (mem_entries.mp he)
  exact ⟨c, s, hc, hack⟩

theorem Tidy.rejectSyncs (h : Tidy m) : Tidy m.rejectSyncs := by
  have hphase : Rephased m.calls m.rejectSyncs.calls := rephased_of fun id hid => by
    obtain ⟨c, s, hc, hack⟩ := h.waits.ofSync hid
    refine ⟨c, hc, ?_⟩
    rw [hack]
    intro hover
    cases hover
  refine ⟨(h.ids.rephase hphase).same rfl rfl (fun _ => rfl) rfl rfl rfl, fun id hid => ?_, fun s id hs => by cases hs⟩
  obtain ⟨c, hc, hwaiting⟩ := h.waits.waiters id hid
  refine ⟨c, (if_neg fun hsync => ?_).trans hc, hwaiting⟩
  obtain ⟨d, s, hd, hack⟩ := h.waits.ofSync hsync
  rw [hc, Option.some_inj] at hd
  rw [← hd, hwaiting] at hack
  cases hack

theorem Tidy.rejectAll (h : Tidy m) (reason : String) : Tidy (m.rejectAllPending reason) :=
  ⟨h.ids.rejectAll reason, h.waits.same rfl rfl rfl rfl⟩

theorem Tidy.respawn (h : Tidy m) : Tidy m.respawn := by
  have hgone : Tidy { { m with worker := none }.clearBootTimer with ready := false, readyError := none } :=
    ⟨h.ids.same rfl rfl (fun _ => rfl) rfl rfl rfl, h.waits.same rfl rfl rfl rfl⟩
  have hsyncs := (hgone.rejectAll "sandbox reset").rejectSyncs
  exact ⟨hsyncs.ids.resolveGlobals, hsyncs.waits.same rfl rfl rfl rfl⟩

theorem Tidy.bootTimeout (h : Tidy m) : Tidy m.onBootTimeout := by
  have hfired : Tidy { m with bootTimer := none } :=
    ⟨h.ids.same rfl rfl (fun _ => rfl) rfl rfl rfl, h.waits.same rfl rfl rfl rfl⟩
  unfold Manager.onBootTimeout
  dsimp only
  split
  · exact hfired
  · have hrejected := hfired.rejectAll m.bootMessage
    refine Tidy.respawn (Tidy.flush ?_)
    exact ⟨hrejected.ids.same rfl rfl (fun _ => rfl) rfl rfl rfl, hrejected.waits.same rfl rfl rfl rfl⟩

theorem Tidy.giveUp (h : Tidy m) {id : ℕ} {p : PendingRun} (hp : m.pending.lookup id = some p) (reason : String) :
    Tidy (m.giveUp id p reason) := by
  -- the run is settled last; had it been settled first, only the order would differ
  have hfirst : Tidy ({ m.clearTimers p.timers with pending := m.pending.erase id }.settle id (.rejected reason)) :=
    ⟨(h.ids.clearTimers p.timers).settlePending hp _, h.waits.same rfl rfl rfl rfl⟩
  refine ⟨hfirst.respawn.ids.reorder ?_, hfirst.respawn.waits.same rfl rfl rfl rfl⟩
  change (((m.settled ++ _) ++ _) ++ [_]).Perm (((m.settled ++ [_]) ++ _) ++ _)
  rw [List.append_assoc, List.append_assoc, List.append_assoc, List.append_assoc]
  refine List.Perm.append_left m.settled ?_
  rw [← List.append_assoc]
  exact List.perm_append_comm

/-! ## Timers and messages -/

theorem lookup_change {V : Type} {d : Dict ℕ V} {id : ℕ} {p : V} (hp : d.lookup id = some p) (q : V) (other : ℕ) :
    ((d.insert id q).lookup other).isSome = (d.lookup other).isSome := by
  rw [lookup_insert_eq]
  split
  · rename_i heq
    rw [heq, hp]
    rfl
  · rfl

/-- A run's entry is changed, and timers are set and cleared. -/
theorem Tidy.change (h : Tidy m) {id : ℕ} {p : PendingRun} (hp : m.pending.lookup id = some p) (q : PendingRun)
    (armed : ℕ → Option TimerKind) (nextTimer : ℕ) :
    Tidy { m with pending := m.pending.insert id q, armed := armed, nextTimer := nextTimer } :=
  ⟨h.ids.same rfl rfl (lookup_change hp q) rfl rfl rfl, h.waits.same rfl rfl rfl rfl⟩

theorem Tidy.clearTimers (h : Tidy m) (timers : List (Option ℕ)) : Tidy (m.clearTimers timers) :=
  ⟨h.ids.clearTimers timers, h.waits.same rfl rfl rfl rfl⟩

theorem Tidy.escalate (h : Tidy m) (id : ℕ) : Tidy (m.escalateToTerminate id) := by
  unfold Manager.escalateToTerminate
  split
  · exact h
  · rename_i p hp
    exact h.giveUp hp _

theorem Tidy.timeout (h : Tidy m) (id : ℕ) : Tidy (m.onTimeout id) := by
  unfold Manager.onTimeout
  split
  · exact h
  · rename_i p hp
    split
    · exact h.change hp _ _ _
    · exact h.escalate id

theorem Tidy.installTimeout (h : Tidy m) (id : ℕ) : Tidy (m.onInstallTimeout id) := by
  unfold Manager.onInstallTimeout
  split
  · exact h
  · rename_i p hp
    exact h.giveUp hp _

theorem Tidy.globalsTimeout (h : Tidy m) (id : ℕ) : Tidy (m.onGlobalsTimeout id) := by
  unfold Manager.onGlobalsTimeout
  split
  · rename_i hasked
    obtain ⟨t, ht⟩ := Option.isSome_iff_exists.mp hasked
    exact ⟨h.ids.answer ht, h.waits.same rfl rfl rfl rfl⟩
  · exact h

theorem Tidy.fire (h : Tidy m) (t : ℕ) : Tidy (m.fire t) := by
  unfold Manager.fire
  split
  · exact h
  · rename_i kind _
    have hfired := h.clearTimers [some t]
    cases kind with
    | boot => exact hfired.bootTimeout
    | exec id => exact hfired.timeout id
    | install id => exact hfired.installTimeout id
    | fallback id => exact hfired.escalate id
    | globals id => exact hfired.globalsTimeout id

theorem Tidy.watchdog (h : Tidy m) (id : ℕ) : Tidy (m.armInstallWatchdog id) := by
  unfold Manager.armInstallWatchdog
  split
  · exact h
  · rename_i p hp
    exact h.change hp _ _ _

theorem Tidy.pkgPhaseStart (h : Tidy m) (id : ℕ) : Tidy (m.handlePkgPhaseStart id) := by
  unfold Manager.handlePkgPhaseStart
  split
  · exact h
  · rename_i p hp
    exact (h.change hp _ _ _).watchdog id

theorem Tidy.execStart (h : Tidy m) (id : ℕ) : Tidy (m.handleExecStart id) := by
  unfold Manager.handleExecStart
  split
  · exact h
  · rename_i p hp
    exact h.change hp _ _ _

theorem Tidy.done (h : Tidy m) (id : ℕ) : Tidy (m.handleDone id) := by
  unfold Manager.handleDone
  split
  · exact h
  · rename_i p hp
    exact ⟨(h.ids.clearTimers p.timers).settlePending hp _, h.waits.same rfl rfl rfl rfl⟩

theorem Tidy.globals (h : Tidy m) (id : ℕ) : Tidy (m.handleGlobals id) := by
  unfold Manager.handleGlobals
  split
  · exact h
  · rename_i t ht
    exact ⟨(h.ids.clearTimers [some t]).answer ht, h.waits.same rfl rfl rfl rfl⟩

/-- A call that waits neither for the worker to be ready nor on a sync goes on. -/
theorem Tidy.setPhase (h : Tidy m) {id : ℕ} {c : Call} (hc : m.calls id = some c) (hfree : id ∉ m.readyWaiters)
    (hover : c.phase ≠ .finished) (hack : ∀ s, c.phase ≠ .ack s) (phase : Phase) : Tidy (m.setPhase id phase) := by
  refine ⟨h.ids.rephase (rephased_setPhase hc hover phase), fun other hother => ?_, fun s other hs => ?_⟩
  · obtain ⟨d, hd, hwaiting⟩ := h.waits.waiters other hother
    have hne : other ≠ id := fun heq => hfree (by rwa [← heq])
    exact ⟨d, (Function.update_of_ne hne _ _).trans hd, hwaiting⟩
  · obtain ⟨hlt, d, hd, hphase⟩ := h.waits.syncs s other hs
    have hne : other ≠ id := by
      rintro rfl
      rw [hc, Option.some_inj] at hd
      exact hack s (by rw [hd, hphase])
    exact ⟨hlt, d, (Function.update_of_ne hne _ _).trans hd, hphase⟩

theorem Tidy.syncAck (h : Tidy m) (syncId : ℕ) : Tidy (m.handleSyncAck syncId) := by
  unfold Manager.handleSyncAck
  split
  · exact h
  · rename_i id hid
    obtain ⟨-, c, hc, hack⟩ := h.waits.syncs syncId id hid
    have hover : c.phase ≠ .finished := by
      rw [hack]
      intro hover
      cases hover
    refine ⟨(h.ids.rephase (rephased_setPhase hc hover .synced)).same rfl rfl (fun _ => rfl) rfl rfl rfl,
      fun other hother => ?_, fun s other hs => ?_⟩
    · obtain ⟨d, hd, hwaiting⟩ := h.waits.waiters other hother
      have hne : other ≠ id := by
        rintro rfl
        rw [hc, Option.some_inj] at hd
        rw [← hd, hack] at hwaiting
        cases hwaiting
      exact ⟨d, (Function.update_of_ne hne _ _).trans hd, hwaiting⟩
    · dsimp only [Manager.setPhase] at hs
      rw [lookup_erase_eq] at hs
      split at hs
      · cases hs
      · rename_i hother
        obtain ⟨hlt, d, hd, hphase⟩ := h.waits.syncs s other hs
        have hne : other ≠ id := by
          rintro rfl
          rw [hc, Option.some_inj] at hd
          rw [← hd, hack, Phase.ack.injEq] at hphase
          exact hother hphase.symm
        exact ⟨hlt, d, (Function.update_of_ne hne _ _).trans hd, hphase⟩

theorem Tidy.error (h : Tidy m) (error : Option String) : Tidy { m.clearBootTimer with readyError := error } :=
  ⟨h.ids.same rfl rfl (fun _ => rfl) rfl rfl rfl, h.waits.same rfl rfl rfl rfl⟩

theorem Tidy.message (h : Tidy m) (message : Manager.Message) : Tidy (m.onMessage message) := by
  cases message with
  | ready =>
    refine Tidy.flush ?_
    exact ⟨h.ids.same rfl rfl (fun _ => rfl) rfl rfl rfl, h.waits.same rfl rfl rfl rfl⟩
  | loadError error => exact (h.error (some error)).flush
  | pkgPhaseStart id => exact h.pkgPhaseStart id
  | execStart id => exact h.execStart id
  | installProgress id => exact h.watchdog id
  | done id => exact h.done id
  | globals id => exact h.globals id
  | syncAck syncId => exact h.syncAck syncId
  | error message => exact (h.error (some message)).flush.rejectAll _

/-! ## Calls -/

theorem Ids.unknown (h : Ids m) : m.nextCall ∉ m.settled.map Prod.fst ∧ m.nextCall ∉ m.posted.map Prod.fst ∧
    m.pending.lookup m.nextCall = none ∧ m.pendingGlobals.lookup m.nextCall = none := by
  have hnone := h.below m.nextCall (Nat.le_refl _)
  refine ⟨fun hmem => ?_, fun hmem => ?_, Option.eq_none_iff_forall_not_mem.mpr fun p hp => ?_,
    Option.eq_none_iff_forall_not_mem.mpr fun t ht => ?_⟩
  · obtain ⟨c, hc, -⟩ := h.done _ hmem
    rw [hnone] at hc
    cases hc
  · obtain ⟨c, hc, -⟩ := h.sent _ hmem
    rw [hnone] at hc
    cases hc
  · obtain ⟨c, hc, -⟩ := h.inFlight _ p hp
    rw [hnone] at hc
    cases hc
  · have hc := h.asked _ t ht
    rw [hnone] at hc
    cases hc

/-- What a new call is first of all. -/
def Manager.enroll (m : Manager) (kind : CallKind) (timeoutMs : ℕ) : Manager :=
  { m with
    calls := Function.update m.calls m.nextCall (some ⟨kind, .waiting⟩)
    nextCall := m.nextCall + 1
    pending := if kind = .listGlobals then m.pending else m.pending.insert m.nextCall ⟨none, timeoutMs, none, none, false⟩ }

theorem call_eq (kind : CallKind) (timeoutMs : ℕ) :
    m.call kind timeoutMs = (m.enroll kind timeoutMs).waitForReady m.nextCall := by
  unfold Manager.call Manager.enroll
  cases kind <;> rfl

theorem enroll_old {kind : CallKind} {timeoutMs id : ℕ} {c : Call} (h : Ids m) (hc : m.calls id = some c) :
    (m.enroll kind timeoutMs).calls id = some c := by
  refine (Function.update_of_ne ?_ _ _).trans hc
  rintro rfl
  rw [h.below _ (Nat.le_refl _)] at hc
  cases hc

theorem enroll_pending {kind : CallKind} {timeoutMs id : ℕ} {p : PendingRun}
    (hp : (m.enroll kind timeoutMs).pending.lookup id = some p) :
    m.pending.lookup id = some p ∨ id = m.nextCall ∧ kind ≠ .listGlobals := by
  unfold Manager.enroll at hp
  dsimp only at hp
  split at hp
  · exact Or.inl hp
  · rename_i hkind
    rw [lookup_insert_eq] at hp
    split at hp
    · rename_i heq
      exact Or.inr ⟨heq, hkind⟩
    · exact Or.inl hp

theorem Tidy.enroll (h : Tidy m) (kind : CallKind) (timeoutMs : ℕ) : Tidy (m.enroll kind timeoutMs) := by
  have hnew : (m.enroll kind timeoutMs).calls m.nextCall = some ⟨kind, .waiting⟩ := Function.update_self _ _ _
  obtain ⟨hsettled, hposted, hpending, hglobals⟩ := h.ids.unknown
  constructor
  · refine ⟨fun id hid => ?_, fun id p hp => ?_, fun id t ht => enroll_old h.ids (h.ids.asked id t ht), fun id hid => ?_,
      fun id p hp hmem => ?_, h.ids.unanswered, h.ids.once, fun id c hc hkind => ?_, fun id hid => ?_, h.ids.sentOnce⟩
    · have hlt : m.nextCall < id := hid
      exact (Function.update_of_ne (Nat.ne_of_gt hlt) _ _).trans (h.ids.below id (Nat.le_of_lt hlt))
    · obtain hold | ⟨rfl, hkind⟩ := enroll_pending hp
      · obtain ⟨c, hc, hkind⟩ := h.ids.inFlight id p hold
        exact ⟨c, enroll_old h.ids hc, hkind⟩
      · exact ⟨_, hnew, hkind⟩
    · obtain ⟨c, hc, hover⟩ := h.ids.done id hid
      exact ⟨c, enroll_old h.ids hc, hover⟩
    · obtain hold | ⟨rfl, -⟩ := enroll_pending hp
      · exact h.ids.unsettled id p hold hmem
      · exact hsettled hmem
    · by_cases heq : id = m.nextCall
      · subst heq
        rw [hnew, Option.some_inj] at hc
        rw [← hc] at hkind
        refine Or.inr ?_
        unfold Manager.enroll
        dsimp only
        rw [if_neg hkind, AList.lookup_insert]
        rfl
      · have hc : m.calls id = some c := (Function.update_of_ne heq _ _).symm.trans hc
        refine (h.ids.accounted id c hc hkind).imp_right fun hin => ?_
        unfold Manager.enroll
        dsimp only
        split
        · exact hin
        · rwa [AList.lookup_insert_ne heq]
    · obtain ⟨c, hc, hover⟩ := h.ids.sent id hid
      exact ⟨c, enroll_old h.ids hc, hover⟩
  · refine ⟨fun id hid => ?_, fun s id hs => ?_⟩
    · obtain ⟨c, hc, hwaiting⟩ := h.waits.waiters id hid
      exact ⟨c, enroll_old h.ids hc, hwaiting⟩
    · obtain ⟨hlt, c, hc, hack⟩ := h.waits.syncs s id hs
      exact ⟨hlt, c, enroll_old h.ids hc, hack⟩

theorem ensureWorker_calls (m : Manager) : m.ensureWorker.calls = m.calls := by
  unfold Manager.ensureWorker
  split <;> rfl

theorem ensureWorker_readyWaiters (m : Manager) : m.ensureWorker.readyWaiters = m.readyWaiters := by
  unfold Manager.ensureWorker
  split <;> rfl

theorem ensureWorker_pending (m : Manager) : m.ensureWorker.pending = m.pending := by
  unfold Manager.ensureWorker
  split <;> rfl

theorem ensureWorker_posted (m : Manager) : m.ensureWorker.posted = m.posted := by
  unfold Manager.ensureWorker
  split <;> rfl

theorem Tidy.waitForReady (h : Tidy m) {id : ℕ} {kind : CallKind} (hc : m.calls id = some ⟨kind, .waiting⟩)
    (hfree : id ∉ m.readyWaiters) : Tidy (m.waitForReady id) := by
  have hworker := h.ensureWorker
  rw [← ensureWorker_calls] at hc
  rw [← ensureWorker_readyWaiters] at hfree
  have hphase := hworker.setPhase hc hfree (fun hover => by cases hover) (fun s hack => by cases hack)
  unfold Manager.waitForReady
  dsimp only
  split
  · exact hphase _
  · split
    · exact hphase _
    · refine ⟨(hphase .waiting).ids.same rfl rfl (fun _ => rfl) rfl rfl rfl, fun other hother => ?_,
        (hphase .waiting).waits.syncs⟩
      obtain hold | hnew := List.mem_append.mp hother
      · exact (hphase .waiting).waits.waiters other hold
      · rw [List.mem_singleton.mp hnew]
        refine ⟨⟨kind, .waiting⟩, ?_, rfl⟩
        exact (Function.update_self _ _ _).trans (by rw [hc]; rfl)

theorem Tidy.call (h : Tidy m) (kind : CallKind) (timeoutMs : ℕ) : Tidy (m.call kind timeoutMs) := by
  rw [call_eq]
  refine (h.enroll kind timeoutMs).waitForReady (Function.update_self _ _ _) fun hmem => ?_
  obtain ⟨c, hc, -⟩ := h.waits.waiters m.nextCall hmem
  rw [h.ids.below _ (Nat.le_refl _)] at hc
  cases hc

theorem setPhase_call {id : ℕ} {c : Call} (hc : m.calls id = some c) (phase : Phase) :
    (m.setPhase id phase).calls id = some ⟨c.kind, phase⟩ :=
  (Function.update_self _ _ _).trans (by rw [hc]; rfl)

/-- Not posted, or answered, before its promise is over. -/
theorem Ids.notSent (h : Ids m) {id : ℕ} {c : Call} (hc : m.calls id = some c) (hover : c.phase ≠ .finished) :
    id ∉ m.posted.map Prod.fst := by
  intro hmem
  obtain ⟨d, hd, hphase⟩ := h.sent id hmem
  rw [hc, Option.some_inj] at hd
  exact hover (by rw [hd, hphase])

theorem Tidy.post (h : Tidy m) {id : ℕ} {c : Call} (hc : m.calls id = some c) (hfree : id ∉ m.readyWaiters)
    (hover : c.phase ≠ .finished) (hack : ∀ s, c.phase ≠ .ack s) : Tidy (m.post id) := by
  have hphase := h.setPhase hc hfree hover hack .finished
  have hsent := h.ids.notSent hc hover
  unfold Manager.post
  dsimp only
  split
  · exact hphase
  · rename_i p hp
    have hset := (hphase.change hp { p with timer := some (m.setPhase id .finished).nextTimer }
      ((m.setPhase id .finished).setTimer (.exec id)).armed ((m.setPhase id .finished).nextTimer + 1)).ensureWorker
    have hcall := setPhase_call hc .finished
    refine ⟨⟨hset.ids.below, hset.ids.inFlight, hset.ids.asked, hset.ids.done, hset.ids.unsettled, hset.ids.unanswered,
      hset.ids.once, hset.ids.accounted, fun other hother => ?_, ?_⟩, hset.waits.same rfl rfl rfl rfl⟩
    · dsimp only at hother
      rw [List.map_append, List.mem_append] at hother
      obtain hold | hnew := hother
      · exact hset.ids.sent other hold
      · rw [List.mem_singleton.mp hnew]
        refine ⟨⟨c.kind, .finished⟩, ?_, rfl⟩
        dsimp only
        rw [ensureWorker_calls]
        exact hcall
    · dsimp only
      rw [List.map_append, ensureWorker_posted]
      refine h.ids.sentOnce.append (List.nodup_singleton id) fun other hold hnew => hsent ?_
      have heq : other = id := List.mem_singleton.mp hnew
      rwa [heq] at hold

theorem Tidy.askGlobals (h : Tidy m) {id : ℕ} {phase : Phase} (hc : m.calls id = some ⟨.listGlobals, phase⟩)
    (hfree : id ∉ m.readyWaiters) (hover : phase ≠ .finished) (hack : ∀ s, phase ≠ .ack s) : Tidy (m.askGlobals id) := by
  have hphase := h.setPhase hc hfree hover hack .finished
  have hset : Ids ((m.setPhase id .finished).setTimer (.globals id)) := hphase.ids.same rfl rfl (fun _ => rfl) rfl rfl rfl
  refine Tidy.ensureWorker ⟨⟨hset.below, hset.inFlight, fun other t ht => ?_, hset.done, hset.unsettled, fun other t ht => ?_,
    hset.once, hset.accounted, hset.sent, hset.sentOnce⟩, hphase.waits.same rfl rfl rfl rfl⟩
  · dsimp only at ht
    rw [lookup_insert_eq] at ht
    split at ht
    · rename_i heq
      rw [heq]
      exact setPhase_call hc .finished
    · exact hset.asked other t ht
  · dsimp only at ht
    rw [lookup_insert_eq] at ht
    split at ht
    · rename_i heq
      rw [heq]
      intro hmem
      obtain ⟨d, hd, hdone⟩ := h.ids.done id hmem
      rw [hc, Option.some_inj] at hd
      rw [← hd] at hdone
      exact hover (hdone rfl)
    · exact hset.unanswered other t ht

theorem Tidy.failCall (h : Tidy m) {id : ℕ} {c : Call} (hc : m.calls id = some c) (hfree : id ∉ m.readyWaiters)
    (hover : c.phase ≠ .finished) (hack : ∀ s, c.phase ≠ .ack s) (error : String) : Tidy (m.failCall id c.kind error) := by
  have hphase := h.setPhase hc hfree hover hack .finished
  unfold Manager.failCall
  dsimp only
  split
  · rename_i hkind
    refine ⟨?_, hphase.waits.same rfl rfl rfl rfl⟩
    have hpending : (m.setPhase id .finished).pending.lookup id = none :=
      Option.eq_none_iff_forall_not_mem.mpr fun p hp => by
        obtain ⟨d, hd, hne⟩ := h.ids.inFlight id p hp
        rw [hc, Option.some_inj] at hd
        exact hne (by rw [← hd, hkind])
    have hglobals : (m.setPhase id .finished).pendingGlobals.lookup id = none :=
      Option.eq_none_iff_forall_not_mem.mpr fun t ht => by
        have hasked := h.ids.asked id t ht
        rw [hc, Option.some_inj] at hasked
        exact hover (by rw [hasked])
    refine @Ids.leave _ hphase.ids _ _ [(id, .resolved)] (List.nodup_singleton id) (fun other hother => ?_) (fun other => ?_)
      fun other => ?_
    · rw [List.mem_singleton.mp hother]
      refine ⟨fun hmem => ?_, _, setPhase_call hc .finished, fun _ => rfl⟩
      obtain ⟨d, hd, hdone⟩ := h.ids.done id hmem
      rw [hc, Option.some_inj] at hd
      rw [← hd] at hdone
      exact hover (hdone hkind)
    · split
      · rename_i hmem
        rw [List.mem_singleton.mp hmem]
        exact hpending
      · rfl
    · split
      · rename_i hmem
        rw [List.mem_singleton.mp hmem]
        exact hglobals
      · rfl
  · split
    · exact hphase
    · rename_i p hp
      exact ⟨(hphase.ids.clearTimers [p.timer]).settlePending hp _, hphase.waits.same rfl rfl rfl rfl⟩

/-- A call in another phase is not among those that wait for the worker to be ready. -/
theorem Waits.free (h : Waits m) {id : ℕ} {c : Call} (hc : m.calls id = some c) (hphase : c.phase ≠ .waiting) :
    id ∉ m.readyWaiters := by
  intro hmem
  obtain ⟨d, hd, hwaiting⟩ := h.waiters id hmem
  rw [hc, Option.some_inj] at hd
  exact hphase (by rw [hd, hwaiting])

theorem Tidy.goOn (h : Tidy m) (id : ℕ) (workdir : Bool) : Tidy (m.goOn id workdir) := by
  unfold Manager.goOn
  split
  · exact h
  · rename_i c hc
    have hfree : c.phase ≠ .waiting → id ∉ m.readyWaiters := h.waits.free hc
    split
    · rename_i error hphase
      exact h.failCall hc (hfree (by rw [hphase]; simp)) (by rw [hphase]; simp) (by rw [hphase]; simp) error
    · rename_i hphase
      split
      · rename_i hkind
        have hc : m.calls id = some ⟨.listGlobals, c.phase⟩ := by rw [← hkind, hc]
        exact h.askGlobals hc (hfree (by rw [hphase]; simp)) (by rw [hphase]; simp) (by rw [hphase]; simp)
      · exact h.setPhase hc (hfree (by rw [hphase]; simp)) (by rw [hphase]; simp) (by rw [hphase]; simp) _
    · rename_i hphase
      split
      · exact h.setPhase hc (hfree (by rw [hphase]; simp)) (by rw [hphase]; simp) (by rw [hphase]; simp) _
      · exact h.post hc (hfree (by rw [hphase]; simp)) (by rw [hphase]; simp) (by rw [hphase]; simp)
    · rename_i hphase
      exact h.post hc (hfree (by rw [hphase]; simp)) (by rw [hphase]; simp) (by rw [hphase]; simp)
    · exact h

theorem Tidy.policyAnswered (h : Tidy m) (id : ℕ) : Tidy (m.policyAnswered id) := by
  unfold Manager.policyAnswered
  split
  · rename_i kind hc
    exact h.setPhase hc (h.waits.free hc (by simp)) (by simp) (by simp) _
  · exact h

theorem Tidy.syncAnswered (h : Tidy m) (id : ℕ) (post : Bool) : Tidy (m.syncAnswered id post) := by
  unfold Manager.syncAnswered
  split
  · rename_i kind hc
    have hphase := h.setPhase hc (h.waits.free hc (by simp)) (by simp) (by simp)
    split
    · refine Tidy.ensureWorker ⟨(hphase (.ack m.nextSync)).ids.same rfl rfl (fun _ => rfl) rfl rfl rfl,
        (hphase (.ack m.nextSync)).waits.waiters, fun s other hs => ?_⟩
      dsimp only at hs
      rw [lookup_insert_eq] at hs
      split at hs
      · rename_i heq
        rw [Option.some_inj] at hs
        rw [← hs, heq]
        exact ⟨Nat.lt_succ_self m.nextSync, _, setPhase_call hc _, rfl⟩
      · obtain ⟨hlt, hcall⟩ := (hphase (.ack m.nextSync)).waits.syncs s other hs
        exact ⟨Nat.lt_succ_of_lt hlt, hcall⟩
    · exact hphase _
  · exact h

/-! ## Runs -/

theorem Tidy.act (h : Tidy m) (a : Act) : Tidy (act a m) := by
  cases a with
  | call kind timeoutMs => exact h.call kind timeoutMs
  | goOn id workdir => exact h.goOn id workdir
  | policyAnswered id => exact h.policyAnswered id
  | syncAnswered id post => exact h.syncAnswered id post
  | message message =>
    change Tidy (if m.worker.isSome = true then m.onMessage message else m)
    split
    · exact h.message message
    · exact h
  | fire t => exact h.fire t
  | reset => exact h.respawn

theorem tidy_fresh (isolated : Bool) (bootTimeoutMs : ℕ) : Tidy (fresh isolated bootTimeoutMs) :=
  ⟨⟨fun _ _ => rfl, by simp [fresh], by simp [fresh], by simp [fresh], by simp [fresh], by simp [fresh], List.nodup_nil,
    by simp [fresh], by simp [fresh], List.nodup_nil⟩, by simp [fresh], by simp [fresh]⟩

/-- What some interleaving comes to. -/
def after (isolated : Bool) (bootTimeoutMs : ℕ) (steps : List Act) : Manager :=
  run Calls.act (fresh isolated bootTimeoutMs) steps

theorem tidy_after (isolated : Bool) (bootTimeoutMs : ℕ) (steps : List Act) : Tidy (after isolated bootTimeoutMs steps) := by
  unfold after run
  exact List.foldlRecOn steps _ (tidy_fresh isolated bootTimeoutMs) fun m h a _ => h.act a

/-- No call is settled twice, and no code is posted twice; a run or an install is in flight just until it is settled. -/
theorem calls_settled_once (isolated : Bool) (bootTimeoutMs : ℕ) (steps : List Act) :
    ((after isolated bootTimeoutMs steps).settled.map Prod.fst).Nodup ∧
    ((after isolated bootTimeoutMs steps).posted.map Prod.fst).Nodup ∧
    (∀ id ∈ (after isolated bootTimeoutMs steps).settled.map Prod.fst,
      ((after isolated bootTimeoutMs steps).calls id).isSome = true) ∧
    ∀ id c, (after isolated bootTimeoutMs steps).calls id = some c → c.kind ≠ .listGlobals →
      (id ∈ (after isolated bootTimeoutMs steps).settled.map Prod.fst ↔
        (after isolated bootTimeoutMs steps).pending.lookup id = none) := by
  have h := tidy_after isolated bootTimeoutMs steps
  refine ⟨h.ids.once, h.ids.sentOnce, fun id hid => ?_, fun id c hc hkind => ⟨fun hmem => ?_, fun hnone => ?_⟩⟩
  · obtain ⟨c, hc, -⟩ := h.ids.done id hid
    rw [hc]
    rfl
  · exact Option.eq_none_iff_forall_not_mem.mpr fun p hp => h.ids.unsettled id p hp hmem
  · obtain hsettled | hin := h.ids.accounted id c hc hkind
    · exact hsettled
    · rw [hnone] at hin
      cases hin

end Haruspex.Sandbox.Calls
