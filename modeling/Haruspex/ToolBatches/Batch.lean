import Haruspex.ToolBatches.Model
import Mathlib.Data.List.Perm.Basic
import Mathlib.Data.List.Nodup

/-! What holds of one batch in every state: how many calls are in flight, and what has been given to
`onResult`. While nothing has failed, the bookkeeping is exact. -/
namespace Haruspex.ToolBatches
set_option autoImplicit false

variable {T : Type} {calls : List ResolvedToolCall} {limit : ℕ}

/-- How many calls of a tool may run at once. -/
def capOf (limit : ℕ) (name : String) : ℕ :=
  match perToolCap name with
  | .undefined => limit
  | .number n => n
  | .inherited => 0

theorem underCap_iff {active : ℕ} {name : String} :
    underCap limit active name = true ↔ active < capOf limit name := by
  unfold underCap capOf
  cases perToolCap name <;> simp

theorem capOf_pos (hlimit : 1 ≤ limit) {name : String} (h : name ∉ inheritedNames) :
    0 < capOf limit name := by
  unfold capOf perToolCap
  by_cases hsearch : name = "web_search"
  · simp [hsearch]
  · simp [hsearch, h]
    omega

/-- Whether a call is of this tool. -/
def ofTool (calls : List ResolvedToolCall) (name : String) (i : ℕ) : Bool := nameAt calls i = name

/-! ## Invariants -/

structure Sound (calls : List ResolvedToolCall) (limit : ℕ) (b : Batch T) : Prop where
  length : b.results.length = calls.length
  nodup : (b.waiting ++ b.inFlight).Nodup
  unfinished : ∀ i ∈ b.waiting ++ b.inFlight, b.results[i]? = some none
  given : ∀ (p : ℕ) call result, b.delivered[p]? = some (call, result) →
    calls[p]? = some call ∧ b.results[p]? = some (some result)
  room : b.inFlight.length ≤ limit
  cap : ∀ name, b.inFlight.countP (ofTool calls name) ≤ capOf limit name

/-- The counts of the bookkeeping, while nothing has failed. -/
structure Exact (calls : List ResolvedToolCall) (b : Batch T) : Prop where
  failed : b.failed = false
  running : b.running = b.inFlight.length
  tool : ∀ name, b.activeByTool name = b.inFlight.countP (ofTool calls name)
  next : b.nextToDeliver = b.delivered.length
  all : ∀ i < calls.length, i ∈ b.waiting ++ b.inFlight ∨ ∃ result, b.results[i]? = some (some result)

/-- No result that is due is held back. -/
def Prompt (b : Batch T) : Prop := ∀ result, b.results[b.nextToDeliver]? ≠ some (some result)

/-- No call waits that could start. -/
def Busy (calls : List ResolvedToolCall) (limit : ℕ) (b : Batch T) : Prop :=
  b.running < limit → ∀ i ∈ b.waiting, b.canStart calls limit i = false

variable {b : Batch T} {i : ℕ}

theorem Sound.next_le (h : Sound calls limit b) : b.delivered.length ≤ calls.length := by
  by_contra hlong
  obtain ⟨⟨call, result⟩, hlast⟩ : ∃ x, b.delivered[calls.length]? = some x :=
    ⟨_, List.getElem?_eq_getElem (by omega)⟩
  have hcall := (h.given _ call result hlast).1
  rw [List.getElem?_eq_none (Nat.le_refl _)] at hcall
  cases hcall

/-- What has been given to `onResult` is in call order. -/
theorem Sound.delivered_calls (h : Sound calls limit b) :
    b.delivered.map Prod.fst = calls.take b.delivered.length := by
  refine List.ext_getElem? ?_
  intro p
  rw [List.getElem?_map]
  cases hp : b.delivered[p]? with
  | none =>
    have hlen := List.getElem?_eq_none_iff.mp hp
    rw [List.getElem?_eq_none (by rw [List.length_take]; omega)]
    rfl
  | some x =>
    have hlt := (List.getElem?_eq_some_iff.mp hp).1
    rw [List.getElem?_take_of_lt hlt, (h.given p x.1 x.2 hp).1]
    rfl

/-! ## Starting calls -/

theorem start_inFlight (calls : List ResolvedToolCall) (b : Batch T) (i : ℕ) :
    (b.start calls i).inFlight.Perm (i :: b.inFlight) := by
  have hmiddle : (b.deferred ++ [i] ++ b.active).Perm (i :: (b.deferred ++ b.active)) := by
    rw [List.append_assoc]
    exact List.perm_middle
  exact hmiddle

theorem start_places (b : Batch T) (hi : i ∈ b.waiting) :
    ((b.start calls i).waiting ++ (b.start calls i).inFlight).Perm (b.waiting ++ b.inFlight) := by
  have hflight := (start_inFlight calls b i).append_left (b.waiting.erase i)
  have hwaiting := (List.perm_cons_erase hi).symm.append_right b.inFlight
  exact hflight.trans (List.perm_middle.trans hwaiting)

theorem countP_start (b : Batch T) (name : String) :
    (b.start calls i).inFlight.countP (ofTool calls name) =
      b.inFlight.countP (ofTool calls name) + if nameAt calls i = name then 1 else 0 := by
  rw [(start_inFlight calls b i).countP_eq, List.countP_cons]
  simp [ofTool]

theorem Exact.start (he : Exact calls b) (hi : i ∈ b.waiting) : Exact calls (b.start calls i) := by
  refine ⟨he.failed, ?_, ?_, he.next, ?_⟩
  · rw [(start_inFlight calls b i).length_eq, List.length_cons, ← he.running]
    rfl
  · intro name
    rw [countP_start, ← he.tool]
    show setActive _ _ _ _ = _
    rw [setActive]
    by_cases hname : nameAt calls i = name
    · rw [if_pos hname.symm, if_pos hname, hname]
    · rw [if_neg (Ne.symm hname), if_neg hname, Nat.add_zero]
  · intro j hj
    rw [(start_places b hi).mem_iff]
    exact he.all j hj

theorem Sound.start (h : Sound calls limit b) (he : Exact calls b) (hi : i ∈ b.waiting)
    (hroom : b.running < limit) (hcan : b.canStart calls limit i = true) :
    Sound calls limit (b.start calls i) := by
  refine ⟨h.length, (start_places b hi).nodup_iff.mpr h.nodup, ?_, h.given, ?_, ?_⟩
  · intro j hj
    exact h.unfinished j ((start_places b hi).mem_iff.mp hj)
  · rw [(start_inFlight calls b i).length_eq, List.length_cons, ← he.running]
    exact hroom
  · intro name
    rw [countP_start]
    by_cases hname : nameAt calls i = name
    · rw [if_pos hname, ← he.tool]
      rw [Batch.canStart, underCap_iff, hname] at hcan
      exact hcan
    · rw [if_neg hname]
      exact h.cap name

/-- What a round of starting calls leaves as it was. -/
structure Started (b b' : Batch T) : Prop where
  results : b'.results = b.results
  nextToDeliver : b'.nextToDeliver = b.nextToDeliver
  resolved : b'.resolved = b.resolved
  delivered : b'.delivered = b.delivered

theorem Started.refl (b : Batch T) : Started b b := ⟨rfl, rfl, rfl, rfl⟩

theorem startLoop_spec (fuel : ℕ) (h : Sound calls limit b) (he : Exact calls b)
    (hfuel : b.waiting.length ≤ fuel) :
    Sound calls limit (startLoop calls limit fuel b) ∧ Exact calls (startLoop calls limit fuel b) ∧
      Busy calls limit (startLoop calls limit fuel b) ∧
      Started b (startLoop calls limit fuel b) := by
  induction fuel generalizing b with
  | zero =>
    refine ⟨h, he, ?_, Started.refl b⟩
    intro _ i hi
    have hnone : i ∈ b.waiting := hi
    rw [List.eq_nil_of_length_eq_zero (Nat.le_zero.mp hfuel)] at hnone
    cases hnone
  | succ fuel ih =>
    rw [startLoop]
    by_cases hroom : b.running < limit
    · rw [if_pos ⟨he.failed, hroom⟩]
      cases hfound : b.waiting.find? (b.canStart calls limit) with
      | none =>
        refine ⟨h, he, ?_, Started.refl b⟩
        intro _ i hi
        simpa using List.find?_eq_none.mp hfound i hi
      | some i =>
        have hi := List.mem_of_find?_eq_some hfound
        have hlen : (b.start calls i).waiting.length ≤ fuel := by
          show (b.waiting.erase i).length ≤ fuel
          rw [List.length_erase_of_mem hi]
          omega
        obtain ⟨hsound, hexact, hbusy, hstarted⟩ :=
          ih (h.start he hi hroom (List.find?_some hfound)) (he.start hi) hlen
        exact ⟨hsound, hexact, hbusy, hstarted.results, hstarted.nextToDeliver, hstarted.resolved,
          hstarted.delivered⟩
    · rw [if_neg (fun hcond => hroom hcond.2)]
      exact ⟨h, he, fun hroom' => absurd hroom' hroom, Started.refl b⟩

theorem startMore_spec (h : Sound calls limit b) (he : Exact calls b) :
    Sound calls limit (startMore calls limit b) ∧ Exact calls (startMore calls limit b) ∧
      Busy calls limit (startMore calls limit b) ∧ Started b (startMore calls limit b) :=
  startLoop_spec b.waiting.length h he (Nat.le_refl _)

/-- A batch in which something has failed starts nothing. -/
theorem startMore_failed (h : b.failed = true) : startMore calls limit b = b := by
  unfold startMore
  cases b.waiting.length with
  | zero => rfl
  | succ fuel =>
    rw [startLoop, if_neg]
    rw [h]
    exact fun hcond => Bool.noConfusion hcond.1

/-! ## Giving results to `onResult` -/

variable {throws : ResolvedToolCall → T → Bool}

/-- What a round of deliveries leaves as it was. -/
structure Delivered (b b' : Batch T) : Prop where
  results : b'.results = b.results
  waiting : b'.waiting = b.waiting
  deferred : b'.deferred = b.deferred
  active : b'.active = b.active
  running : b'.running = b.running
  activeByTool : b'.activeByTool = b.activeByTool
  resolved : b'.resolved = b.resolved

theorem Delivered.refl (b : Batch T) : Delivered b b := ⟨rfl, rfl, rfl, rfl, rfl, rfl, rfl⟩

theorem Delivered.inFlight {b' : Batch T} (h : Delivered b b') : b'.inFlight = b.inFlight := by
  rw [Batch.inFlight, Batch.inFlight, h.deferred, h.active]

theorem deliverLoop_same (throws : ResolvedToolCall → T → Bool) (fuel : ℕ) (b : Batch T) :
    Delivered b (deliverLoop calls throws fuel b) := by
  induction fuel generalizing b with
  | zero => exact Delivered.refl b
  | succ fuel ih =>
    rw [deliverLoop]
    split
    · rename_i call result _ _
      dsimp only
      split
      · exact ⟨rfl, rfl, rfl, rfl, rfl, rfl, rfl⟩
      · have hmore := ih { b with
          delivered := b.delivered ++ [(call, result)], nextToDeliver := b.nextToDeliver + 1 }
        exact ⟨hmore.results, hmore.waiting, hmore.deferred, hmore.active, hmore.running,
          hmore.activeByTool, hmore.resolved⟩
    · exact Delivered.refl b

/-- The bookkeeping of a delivery round: a failure stops it, and otherwise nothing due is left. -/
structure Due (calls : List ResolvedToolCall) (b : Batch T) : Prop where
  given : ∀ (p : ℕ) call result, b.delivered[p]? = some (call, result) →
    calls[p]? = some call ∧ b.results[p]? = some (some result)
  next : b.failed = false → b.nextToDeliver = b.delivered.length
  prompt : b.failed = false → Prompt b

/-- The result that is due is given to `onResult`. -/
def Batch.give (b : Batch T) (call : ResolvedToolCall) (result : T) : Batch T :=
  { b with delivered := b.delivered ++ [(call, result)] }

theorem given_give {call : ResolvedToolCall} {result : T}
    (hgiven : ∀ (p : ℕ) call result, b.delivered[p]? = some (call, result) →
      calls[p]? = some call ∧ b.results[p]? = some (some result))
    (hcall : calls[b.delivered.length]? = some call)
    (hresult : b.results[b.delivered.length]? = some (some result)) (p : ℕ) (call' : ResolvedToolCall)
    (result' : T) (hp : (b.give call result).delivered[p]? = some (call', result')) :
    calls[p]? = some call' ∧ b.results[p]? = some (some result') := by
  have hp' : (b.delivered ++ [(call, result)])[p]? = some (call', result') := hp
  rcases Nat.lt_trichotomy p b.delivered.length with hlt | heq | hgt
  · rw [List.getElem?_append_left hlt] at hp'
    exact hgiven p call' result' hp'
  · rw [heq, List.getElem?_concat_length] at hp'
    cases hp'
    rw [heq]
    exact ⟨hcall, hresult⟩
  · rw [List.getElem?_eq_none (by rw [List.length_append, List.length_singleton]; omega)] at hp'
    cases hp'

theorem deliverLoop_spec (throws : ResolvedToolCall → T → Bool) (fuel : ℕ)
    (hlen : b.results.length = calls.length)
    (hgiven : ∀ (p : ℕ) call result, b.delivered[p]? = some (call, result) →
      calls[p]? = some call ∧ b.results[p]? = some (some result))
    (hnext : b.nextToDeliver = b.delivered.length)
    (hfuel : calls.length ≤ fuel + b.nextToDeliver) :
    Due calls (deliverLoop calls throws fuel b) := by
  induction fuel generalizing b with
  | zero =>
    refine ⟨hgiven, fun _ => hnext, ?_⟩
    intro _ result hdue
    have hlt := (List.getElem?_eq_some_iff.mp hdue).1
    show False
    have hsame : (deliverLoop calls throws 0 b) = b := rfl
    rw [hsame] at hlt
    omega
  | succ fuel ih =>
    rw [deliverLoop]
    split
    · rename_i call result hcall hresult
      rw [hnext] at hcall hresult
      have hgive := given_give hgiven hcall hresult
      dsimp only
      by_cases hthrow : throws call result = true
      · rw [if_pos hthrow]
        exact ⟨hgive, fun hfailed => Bool.noConfusion hfailed,
          fun hfailed => Bool.noConfusion hfailed⟩
      · rw [if_neg hthrow]
        refine ih hlen hgive ?_ ?_
        · show b.nextToDeliver + 1 = (b.delivered ++ [(call, result)]).length
          rw [List.length_append, List.length_singleton, hnext]
        · show calls.length ≤ fuel + (b.nextToDeliver + 1)
          omega
    · rename_i hnone
      refine ⟨hgiven, fun _ => hnext, ?_⟩
      intro _ result hdue
      have hlt := (List.getElem?_eq_some_iff.mp hdue).1
      rw [hlen] at hlt
      exact hnone _ _ (List.getElem?_eq_getElem hlt) hdue

/-! ## Settling a call -/

/-- The batch without a call that has settled. -/
def Batch.landed (b : Batch T) (i : ℕ) : Batch T := { b with active := b.active.erase i }

theorem landed_inFlight (hi : i ∈ b.active) : b.inFlight.Perm (i :: (b.landed i).inFlight) := by
  have hactive := (List.perm_cons_erase hi).append_left b.deferred
  exact hactive.trans List.perm_middle

theorem landed_places (hi : i ∈ b.active) :
    (b.waiting ++ b.inFlight).Perm (i :: (b.waiting ++ (b.landed i).inFlight)) :=
  ((landed_inFlight hi).append_left b.waiting).trans List.perm_middle

theorem Sound.landed (h : Sound calls limit b) (hi : i ∈ b.active) :
    Sound calls limit (b.landed i) := by
  have hplaces := landed_places hi
  have hflight := landed_inFlight hi
  refine ⟨h.length, ((hplaces.nodup_iff.mp h.nodup).of_cons), ?_, h.given, ?_, ?_⟩
  · intro j hj
    exact h.unfinished j (hplaces.mem_iff.mpr (List.mem_cons_of_mem i hj))
  · have hroom := h.room
    rw [hflight.length_eq, List.length_cons] at hroom
    omega
  · intro name
    have hcap := h.cap name
    rw [hflight.countP_eq, List.countP_cons] at hcap
    omega

theorem Sound.record (h : Sound calls limit b) (hi : i ∈ b.active) (result : T) :
    Sound calls limit ((b.landed i).record calls i result) := by
  have hplaces := landed_places hi
  have hland := h.landed hi
  have hnot : i ∉ b.waiting ++ (b.landed i).inFlight :=
    (List.nodup_cons.mp (hplaces.nodup_iff.mp h.nodup)).1
  have hother : ∀ j, j ≠ i → (b.results.set i (some result))[j]? = b.results[j]? :=
    fun j hj => List.getElem?_set_ne (Ne.symm hj)
  refine ⟨by rw [Batch.record, List.length_set]; exact h.length, hland.nodup, ?_, ?_, hland.room,
    hland.cap⟩
  · intro j hj
    have hne : j ≠ i := by
      rintro rfl
      exact hnot hj
    exact (hother j hne).trans (hland.unfinished j hj)
  · intro p call given hp
    obtain ⟨hcall, hgiven⟩ := h.given p call given hp
    have hne : p ≠ i := by
      rintro rfl
      have hnone := h.unfinished p (hplaces.mem_iff.mpr List.mem_cons_self)
      rw [hgiven] at hnone
      cases hnone
    exact ⟨hcall, (hother p hne).trans hgiven⟩

theorem Exact.record (he : Exact calls b) (h : Sound calls limit b) (hi : i ∈ b.active) (result : T) :
    Exact calls ((b.landed i).record calls i result) := by
  have hplaces := landed_places hi
  have hflight := landed_inFlight hi
  have hnone := h.unfinished i (hplaces.mem_iff.mpr List.mem_cons_self)
  refine ⟨he.failed, ?_, ?_, he.next, ?_⟩
  · have hrunning := he.running
    rw [hflight.length_eq, List.length_cons] at hrunning
    show b.running - 1 = (b.landed i).inFlight.length
    omega
  · intro name
    have htool := he.tool name
    rw [hflight.countP_eq, List.countP_cons] at htool
    show setActive b.activeByTool _ (b.activeByTool _ - 1) name =
      (b.landed i).inFlight.countP (ofTool calls name)
    rw [setActive]
    by_cases hname : name = nameAt calls i
    · rw [if_pos hname, ← hname]
      have hof : ofTool calls name i = true := by simp [ofTool, hname]
      rw [if_pos hof] at htool
      omega
    · rw [if_neg hname]
      have hof : ¬ ofTool calls name i = true := by simp [ofTool, Ne.symm hname]
      rw [if_neg hof] at htool
      omega
  · intro j hj
    by_cases hji : j = i
    · have hlt := (List.getElem?_eq_some_iff.mp hnone).1
      exact Or.inr ⟨result, by rw [hji]; exact List.getElem?_set_self hlt⟩
    · rcases he.all j hj with hplace | ⟨r, hr⟩
      · rcases List.mem_cons.mp (hplaces.mem_iff.mp hplace) with e | hplace
        · exact absurd e hji
        · exact Or.inl hplace
      · exact Or.inr ⟨r, (List.getElem?_set_ne (Ne.symm hji)).trans hr⟩

/-! ## All states of a batch -/

/-- What holds while nothing has failed. -/
structure Going (calls : List ResolvedToolCall) (limit : ℕ) (b : Batch T) : Prop where
  exact : Exact calls b
  prompt : Prompt b
  busy : Busy calls limit b
  resolved : b.resolved = true ↔ b.delivered.length = calls.length

structure Good (calls : List ResolvedToolCall) (limit : ℕ) (b : Batch T) : Prop where
  sound : Sound calls limit b
  going : b.failed = false → Going calls limit b
  unfailed : b.resolved = true → b.failed = false

/-- A batch that is resolved has nothing in flight. -/
theorem Good.inFlight_resolved (h : Good calls limit b) (hdone : b.resolved = true) :
    b.inFlight = [] := by
  have hall := ((h.going (h.unfailed hdone)).resolved).mp hdone
  rw [List.eq_nil_iff_forall_not_mem]
  intro i hi
  have hnone := h.sound.unfinished i (List.mem_append_right _ hi)
  have hlt := (List.getElem?_eq_some_iff.mp hnone).1
  rw [h.sound.length, ← hall] at hlt
  have hgiven := (h.sound.given i _ _ (List.getElem?_eq_getElem hlt)).2
  rw [hgiven] at hnone
  cases hnone

theorem deliver_good (h : Sound calls limit b) (he : Exact calls b) (hopen : b.resolved = false) :
    Good calls limit (startMore calls limit (deliver calls throws b)) := by
  have hdue := deliverLoop_spec throws calls.length h.length h.given he.next
    (Nat.le_add_right _ _)
  have hsame : Delivered b (deliverLoop calls throws calls.length b) :=
    deliverLoop_same throws calls.length b
  have hsound : Sound calls limit (deliverLoop calls throws calls.length b) := by
    refine ⟨by rw [hsame.results]; exact h.length, ?_, ?_, hdue.given, ?_, ?_⟩
    · rw [hsame.waiting, hsame.inFlight]
      exact h.nodup
    · rw [hsame.waiting, hsame.inFlight, hsame.results]
      exact h.unfinished
    · rw [hsame.inFlight]
      exact h.room
    · rw [hsame.inFlight]
      exact h.cap
  unfold deliver
  dsimp only
  by_cases hfailed : (deliverLoop calls throws calls.length b).failed = true
  · rw [if_pos hfailed, startMore_failed hfailed]
    refine ⟨hsound, fun hno => ?_, fun hres => ?_⟩
    · rw [hfailed] at hno
      cases hno
    · rw [hsame.resolved, hopen] at hres
      cases hres
  · rw [if_neg hfailed]
    have hno : (deliverLoop calls throws calls.length b).failed = false := by simpa using hfailed
    have hexact : Exact calls (deliverLoop calls throws calls.length b) := by
      refine ⟨hno, ?_, ?_, hdue.next hno, ?_⟩
      · rw [hsame.running, hsame.inFlight]
        exact he.running
      · intro name
        rw [hsame.activeByTool, hsame.inFlight]
        exact he.tool name
      · rw [hsame.waiting, hsame.inFlight, hsame.results]
        exact he.all
    have hnext := hdue.next hno
    split
    · rename_i hall
      have hsound' : Sound calls limit
          { deliverLoop calls throws calls.length b with resolved := true } :=
        ⟨hsound.length, hsound.nodup, hsound.unfinished, hsound.given, hsound.room, hsound.cap⟩
      obtain ⟨hs, hx, hbusy, hstarted⟩ :=
        startMore_spec hsound' ⟨hno, hexact.running, hexact.tool, hnext, hexact.all⟩
      refine ⟨hs, fun _ => ⟨hx, ?_, hbusy, ?_⟩, fun _ => hx.failed⟩
      · rw [Prompt, hstarted.results, hstarted.nextToDeliver]
        exact hdue.prompt hno
      · rw [hstarted.resolved, hstarted.delivered]
        exact ⟨fun _ => hnext.symm.trans hall, fun _ => rfl⟩
    · rename_i hall
      obtain ⟨hs, hx, hbusy, hstarted⟩ := startMore_spec hsound hexact
      refine ⟨hs, fun _ => ⟨hx, ?_, hbusy, ?_⟩, fun _ => hx.failed⟩
      · rw [Prompt, hstarted.results, hstarted.nextToDeliver]
        exact hdue.prompt hno
      · rw [hstarted.resolved, hstarted.delivered, hsame.resolved, hopen, ← hnext]
        exact ⟨fun hres => Bool.noConfusion hres, fun hlen => absurd hlen hall⟩

theorem Good.tick (h : Good calls limit b) (hi : i ∈ b.deferred) : Good calls limit (b.tick i) := by
  have hflight : (b.tick i).inFlight.Perm b.inFlight := by
    have hmiddle : (b.deferred.erase i ++ (b.active ++ [i])).Perm
        (i :: b.deferred.erase i ++ b.active) := by
      rw [← List.append_assoc]
      exact List.perm_append_singleton i _
    exact hmiddle.trans ((List.perm_cons_erase hi).symm.append_right b.active)
  have hplaces := hflight.append_left b.waiting
  have hs := h.sound
  refine ⟨⟨hs.length, hplaces.nodup_iff.mpr hs.nodup, ?_, hs.given, ?_, ?_⟩, ?_, h.unfailed⟩
  · intro j hj
    exact hs.unfinished j (hplaces.mem_iff.mp hj)
  · rw [hflight.length_eq]
    exact hs.room
  · intro name
    rw [hflight.countP_eq]
    exact hs.cap name
  · intro hno
    have hg := h.going hno
    refine ⟨⟨hno, ?_, ?_, hg.exact.next, ?_⟩, hg.prompt, hg.busy, hg.resolved⟩
    · rw [hflight.length_eq]
      exact hg.exact.running
    · intro name
      rw [hflight.countP_eq]
      exact hg.exact.tool name
    · intro j hj
      exact (hg.exact.all j hj).imp hplaces.mem_iff.mpr id

theorem Good.settle (h : Good calls limit b) (hi : i ∈ b.active) (outcome : Outcome T) :
    Good calls limit (settle calls limit throws b i outcome) := by
  have hopen : b.resolved = false := by
    by_contra hres
    have hnil := h.inFlight_resolved (by simpa using hres)
    have hmem : i ∈ b.inFlight := List.mem_append_right _ hi
    rw [hnil] at hmem
    cases hmem
  have hland := h.sound.landed hi
  have hstopped : ∀ b' : Batch T, b'.failed = true → b'.resolved = b.resolved →
      Sound calls limit b' → Good calls limit b' := by
    intro b' hfailed hres hs
    refine ⟨hs, fun hno => ?_, fun hdone => ?_⟩
    · rw [hfailed] at hno
      cases hno
    · rw [hres, hopen] at hdone
      cases hdone
  cases outcome with
  | failure =>
    exact hstopped _ rfl rfl
      ⟨hland.length, hland.nodup, hland.unfinished, hland.given, hland.room, hland.cap⟩
  | value result =>
    unfold ToolBatches.settle
    dsimp only
    split
    · rename_i hfailed
      exact hstopped _ hfailed rfl hland
    · rename_i hfailed
      have he := (h.going (by simpa using hfailed)).exact
      exact deliver_good (h.sound.record hi result) (he.record h.sound hi result) hopen

theorem Good.step {b' : Batch T} {outcome : ℕ → Outcome T} (h : Good calls limit b)
    (hstep : Step calls limit throws outcome b b') : Good calls limit b' := by
  cases hstep with
  | tick i hi => exact h.tick hi
  | settle i hi => exact h.settle hi (outcome i)

theorem runToolBatch_good (calls : List ResolvedToolCall) (limit : ℕ) :
    Good calls limit (runToolBatch calls limit : Batch T) := by
  have hsound : Sound calls limit (fresh calls : Batch T) := by
    refine ⟨List.length_replicate, ?_, ?_, ?_, Nat.zero_le _, fun _ => Nat.zero_le _⟩
    · show (List.range calls.length ++ []).Nodup
      rw [List.append_nil]
      exact List.nodup_range
    · intro i hi
      have hi' : i ∈ List.range calls.length ++ [] := hi
      rw [List.append_nil, List.mem_range] at hi'
      exact List.getElem?_replicate_of_lt hi'
    · intro p call result hp
      cases hp
  have hexact : Exact calls (fresh calls : Batch T) := by
    refine ⟨rfl, rfl, fun _ => rfl, rfl, ?_⟩
    intro i hi
    exact Or.inl (List.mem_append_left _ (List.mem_range.mpr hi))
  have hprompt : Prompt (fresh calls : Batch T) := by
    intro result hdue
    have hmem := List.mem_of_getElem? hdue
    cases List.eq_of_mem_replicate hmem
  unfold runToolBatch
  split
  · rename_i hempty
    refine ⟨⟨hsound.length, hsound.nodup, hsound.unfinished, hsound.given, hsound.room, hsound.cap⟩,
      fun _ => ⟨⟨rfl, rfl, fun _ => rfl, rfl, hexact.all⟩, hprompt, ?_, ?_⟩, fun _ => rfl⟩
    · intro _ i hi
      have hi' : i ∈ List.range calls.length := hi
      rw [hempty] at hi'
      cases hi'
    · exact ⟨fun _ => hempty.symm, fun _ => rfl⟩
  · rename_i hsome
    obtain ⟨hs, hx, hbusy, hstarted⟩ := startMore_spec hsound hexact
    refine ⟨hs, fun _ => ⟨hx, ?_, hbusy, ?_⟩, fun _ => hx.failed⟩
    · rw [Prompt, hstarted.results, hstarted.nextToDeliver]
      exact hprompt
    · rw [hstarted.resolved, hstarted.delivered]
      exact ⟨fun hres => Bool.noConfusion hres, fun hlen => absurd hlen.symm hsome⟩

end Haruspex.ToolBatches
