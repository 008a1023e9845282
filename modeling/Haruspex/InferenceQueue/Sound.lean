import Haruspex.InferenceQueue.Pump
import Mathlib.Data.List.Nodup
import Mathlib.Tactic.Common

/-! The invariant of the queue's own bookkeeping: ticket ids are unique, `senders` has a sender for
each waiting ticket and no other, and the channels of those senders are exactly the ones on which
nothing has been seen yet. -/
namespace Haruspex.InferenceQueue
open AdmissionScan
set_option autoImplicit false

namespace Inner

/-! ## Channels -/

/-- The senders in the map are the sending halves of the pending channels, one each. -/
structure Wired (s : Inner) : Prop where
  pending_of_sender : ∀ id k, s.senders id = some k → s.oneshots[k]? = some .pending
  sender_of_pending : ∀ k, s.oneshots[k]? = some .pending → ∃ id, s.senders id = some k
  inj : ∀ id id' k, s.senders id = some k → s.senders id' = some k → id = id'

theorem Wired.takeSender {s : Inner} (h : s.Wired) (id : String) {seen : Oneshot}
    (hseen : seen ≠ .pending) : (s.takeSender id seen).Wired := by
  unfold Inner.takeSender
  split
  · exact h
  · rename_i tx htx
    have hne : ∀ id' k, id' ≠ id → s.senders id' = some k → tx ≠ k := by
      intro id' k hid hk e
      subst e
      exact hid (h.inj id' id tx hk htx)
    refine ⟨?_, ?_, ?_⟩
    · intro id' k hk
      by_cases e : id' = id
      · simp [e] at hk
      · have hk : s.senders id' = some k := by simpa [e] using hk
        rw [List.getElem?_set_ne (hne id' k e hk)]
        exact h.pending_of_sender id' k hk
    · intro k hk
      have hk' : tx ≠ k := by
        intro e
        subst e
        rw [List.getElem?_set] at hk
        split at hk
        · split at hk
          · exact hseen (Option.some.inj hk)
          · cases hk
        · exact absurd rfl ‹_›
      rw [List.getElem?_set_ne hk'] at hk
      obtain ⟨id', hid'⟩ := h.sender_of_pending k hk
      have e : id' ≠ id := by
        intro e
        rw [e, htx] at hid'
        exact hk' (Option.some.inj hid')
      exact ⟨id', by simpa [e] using hid'⟩
    · intro id₁ id₂ k h₁ h₂
      have e₁ : id₁ ≠ id := by
        intro e
        simp [e] at h₁
      have e₂ : id₂ ≠ id := by
        intro e
        simp [e] at h₂
      exact h.inj id₁ id₂ k (by simpa [e₁] using h₁) (by simpa [e₂] using h₂)

theorem Wired.takeSenders {s : Inner} (h : s.Wired) (ids : List String) {seen : Oneshot}
    (hseen : seen ≠ .pending) : (s.takeSenders ids seen).Wired := by
  induction ids generalizing s with
  | nil => exact h
  | cons id ids ih => exact ih (h.takeSender id hseen)

/-- The channels are not part of the vector, the capacities or the reservations. -/
theorem Wired.of_eq {s u : Inner} (h : s.Wired) (hsenders : u.senders = s.senders)
    (honeshots : u.oneshots = s.oneshots) : u.Wired := by
  refine ⟨?_, ?_, ?_⟩
  · rw [hsenders, honeshots]
    exact h.pending_of_sender
  · rw [hsenders, honeshots]
    exact h.sender_of_pending
  · rw [hsenders]
    exact h.inj

theorem dropSender_of_none {s : Inner} {id : String} (h : s.senders id = none) :
    s.dropSender id = s := by
  rw [dropSender, Inner.takeSender, h]

/-- A new channel for a request that has no sender yet. -/
theorem Wired.insertSender {s u : Inner} {id : String} (h : s.Wired) (hnone : s.senders id = none)
    (hsenders : u.senders = Function.update s.senders id (some s.oneshots.length))
    (honeshots : u.oneshots = s.oneshots ++ [.pending]) : u.Wired := by
  have hlt : ∀ id' k, s.senders id' = some k → k < s.oneshots.length := fun id' k hk =>
    (List.getElem?_eq_some_iff.mp (h.pending_of_sender id' k hk)).1
  refine ⟨?_, ?_, ?_⟩
  · intro id' k hk
    rw [hsenders] at hk
    rw [honeshots]
    by_cases e : id' = id
    · have hk : s.oneshots.length = k := by simpa [e] using hk
      subst hk
      simp
    · have hk : s.senders id' = some k := by simpa [e] using hk
      rw [List.getElem?_append_left (hlt id' k hk)]
      exact h.pending_of_sender id' k hk
  · intro k hk
    rw [honeshots] at hk
    rw [hsenders]
    by_cases e : k < s.oneshots.length
    · rw [List.getElem?_append_left e] at hk
      obtain ⟨id', hid'⟩ := h.sender_of_pending k hk
      have hne : id' ≠ id := by
        intro e'
        rw [e', hnone] at hid'
        cases hid'
      exact ⟨id', by simpa [hne] using hid'⟩
    · have hk' := (List.getElem?_eq_some_iff.mp hk).1
      rw [List.length_append, List.length_singleton] at hk'
      have hk : k = s.oneshots.length := by omega
      exact ⟨id, by simp [hk]⟩
  · intro id₁ id₂ k h₁ h₂
    rw [hsenders] at h₁ h₂
    by_cases e₁ : id₁ = id <;> by_cases e₂ : id₂ = id
    · rw [e₁, e₂]
    · have h₁ : s.oneshots.length = k := by simpa [e₁] using h₁
      have h₂ := hlt id₂ k (by simpa [e₂] using h₂)
      omega
    · have h₁ := hlt id₁ k (by simpa [e₁] using h₁)
      have h₂ : s.oneshots.length = k := by simpa [e₂] using h₂
      omega
    · exact h.inj id₁ id₂ k (by simpa [e₁] using h₁) (by simpa [e₂] using h₂)

/-! ## Soundness -/

structure Sound (s : Inner) : Prop where
  ids_nodup : (s.tickets.map Ticket.id).Nodup
  sender_iff : ∀ id, (s.senders id).isSome = true ↔ ∃ t ∈ s.tickets, t.id = id ∧ t.state = .waiting
  wired : s.Wired

theorem Sound.tickets_nodup {s : Inner} (h : s.Sound) : s.tickets.Nodup := h.ids_nodup.of_map _

theorem Sound.eq_of_id {s : Inner} (h : s.Sound) {t u : Ticket} (ht : t ∈ s.tickets)
    (hu : u ∈ s.tickets) (hid : t.id = u.id) : t = u :=
  List.inj_on_of_nodup_map h.ids_nodup ht hu hid

theorem empty_sound : Inner.empty.Sound := by
  refine ⟨List.nodup_nil, ?_, ?_, ?_, ?_⟩ <;> simp [Inner.empty]

theorem Sound.sender_none {s : Inner} (h : s.Sound) {id : String}
    (hid : ∀ t ∈ s.tickets, t.id ≠ id) : s.senders id = none := by
  by_contra hsome
  obtain ⟨t, ht, e, -⟩ := (h.sender_iff id).mp (Option.isSome_iff_ne_none.mpr hsome)
  exact hid t ht e

/-! ## Pump -/

theorem ids_of_outcome (s : Inner) {ts ts' : List Ticket} (h : List.Forall₂ s.gate.Outcome ts ts') :
    ts'.map Ticket.id = ts.map Ticket.id := by
  induction h with
  | nil => rfl
  | cons hab _ ih =>
    rw [List.map_cons, List.map_cons, ih]
    rcases hab with rfl | ⟨-, -, rfl⟩ <;> rfl

theorem pump_ids (s : Inner) : s.pump.tickets.map Ticket.id = s.tickets.map Ticket.id := by
  rw [pump_tickets]
  exact s.ids_of_outcome (s.gate.scan_outcome _ _)

/-- The tickets after a pump: the ones it left alone and the ones it started. -/
theorem Sound.mem_pump {s : Inner} (h : s.Sound) (u : Ticket) : u ∈ s.pump.tickets ↔
    (u ∈ s.tickets ∧ u ∉ s.pumped) ∨ ∃ t ∈ s.pumped, t.start = u := by
  rw [pump_tickets]
  exact s.gate.mem_scan_iff _ _ h.tickets_nodup u

theorem mem_pumped {s : Inner} {t : Ticket} (h : t ∈ s.pumped) :
    t ∈ s.tickets ∧ t.state = .waiting := by
  obtain ⟨ht, hidle, -⟩ := s.gate.idle_of_started _ _ h
  refine ⟨ht, ?_⟩
  cases hs : t.state with
  | waiting => rfl
  | running => simp [gate, hs] at hidle

theorem Sound.mem_pumped_ids {s : Inner} (h : s.Sound) {t : Ticket} (ht : t ∈ s.tickets) :
    t.id ∈ s.pumped.map Ticket.id ↔ t ∈ s.pumped := by
  constructor
  · intro hid
    obtain ⟨u, hu, e⟩ := List.mem_map.mp hid
    exact h.eq_of_id (mem_pumped hu).1 ht e ▸ hu
  · exact List.mem_map_of_mem

theorem Sound.pump {s : Inner} (h : s.Sound) : s.pump.Sound := by
  refine ⟨?_, ?_, ?_⟩
  · rw [pump_ids]
    exact h.ids_nodup
  · intro id
    rw [pump_senders]
    constructor
    · intro hsome
      split at hsome
      · cases hsome
      · rename_i hid
        obtain ⟨t, ht, rfl, hwait⟩ := (h.sender_iff id).mp hsome
        refine ⟨t, (h.mem_pump t).mpr (Or.inl ⟨ht, ?_⟩), rfl, hwait⟩
        exact fun hp => hid ((h.mem_pumped_ids ht).mpr hp)
    · rintro ⟨u, hu, rfl, hwait⟩
      rcases (h.mem_pump u).mp hu with ⟨hu, hno⟩ | ⟨t, -, rfl⟩
      · rw [if_neg (fun hid => hno ((h.mem_pumped_ids hu).mp hid))]
        exact (h.sender_iff u.id).mpr ⟨u, hu, rfl, hwait⟩
      · cases hwait
  · rw [pump_eq, loopState]
    refine Wired.takeSenders ?_ _ (fun e => by cases e)
    exact h.wired.of_eq rfl rfl

end Inner

end Haruspex.InferenceQueue
