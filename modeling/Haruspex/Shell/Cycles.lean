import Haruspex.Shell.Capture

/-! Which commands the markers give: `completed_command_count` and `capture_recent_commands` walk the ring
backwards, one cycle of B, C and D at a time. -/
namespace Haruspex.Shell
set_option autoImplicit false

/-! ## The last entry of a kind -/

theorem splitLast_of_forall {A : Type} {p : A → Bool} {l : List A} (h : ∀ a ∈ l, p a = false) :
    splitLast p l = none := by
  cases hsplit : splitLast p l with
  | none => rfl
  | some parts =>
    obtain ⟨before, x, after⟩ := parts
    obtain ⟨rfl, hx, -⟩ := splitLast_eq_some hsplit
    rw [h x (List.mem_append_right before List.mem_cons_self)] at hx
    cases hx

/-- Where nothing of the kind comes after, the entry is the last. -/
theorem splitLast_append {A : Type} {p : A → Bool} (before : List A) {x : A} {after : List A} (hx : p x = true)
    (h : ∀ a ∈ after, p a = false) : splitLast p (before ++ x :: after) = some (before, x, after) := by
  induction before with
  | nil =>
    rw [List.nil_append, splitLast, splitLast_of_forall h]
    simp [hx]
  | cons a before ih => rw [List.cons_append, splitLast, ih]

/-- After an entry that is not of the kind, or in what follows all of it. -/
theorem splitLast_append_of_none {A : Type} {p : A → Bool} {front back : List A} (h : ∀ a ∈ back, p a = false) :
    splitLast p (front ++ back) = (splitLast p front).map (fun parts => (parts.1, parts.2.1, parts.2.2 ++ back)) := by
  cases hsplit : splitLast p front with
  | none =>
    refine splitLast_of_forall fun a ha => ?_
    obtain ha | ha := List.mem_append.mp ha
    · exact splitLast_eq_none hsplit a ha
    · exact h a ha
  | some parts =>
    obtain ⟨before, x, after⟩ := parts
    obtain ⟨rfl, hx, hafter⟩ := splitLast_eq_some hsplit
    rw [List.append_assoc, List.cons_append]
    refine splitLast_append before hx fun a ha => ?_
    obtain ha | ha := List.mem_append.mp ha
    · exact hafter a ha
    · exact h a ha

/-! ## Cycles -/

/-- The markers of a command that ended, with their places in the ring. -/
structure Cycle where
  bAt : ℕ
  b : Marker
  cAt : ℕ
  c : Marker
  dAt : ℕ
  d : Marker

/-- Where the markers of a cycle are. -/
structure Cycle.In (cycle : Cycle) (markers : List Marker) : Prop where
  b : markers[cycle.bAt]? = some cycle.b ∧ cycle.b.kind = .commandStart
  c : markers[cycle.cAt]? = some cycle.c ∧ cycle.c.kind = .outputStart
  d : markers[cycle.dAt]? = some cycle.d ∧ cycle.d.kind = .outputEnd
  inOrder : cycle.bAt < cycle.cAt ∧ cycle.cAt < cycle.dAt

/-- The cycles that some markers give are found among more markers as well. -/
theorem Cycle.In.append {cycle : Cycle} {markers : List Marker} (h : cycle.In markers) (more : List Marker) :
    cycle.In (markers ++ more) := by
  have hget : ∀ {i : ℕ} {m : Marker}, markers[i]? = some m → (markers ++ more)[i]? = some m := by
    intro i m hm
    have hlt := (List.getElem?_eq_some_iff.mp hm).1
    rw [List.getElem?_append_left hlt]
    exact hm
  exact ⟨⟨hget h.b.1, h.b.2⟩, ⟨hget h.c.1, h.c.2⟩, ⟨hget h.d.1, h.d.2⟩, h.inOrder⟩

theorem Cycle.In.dAt_lt {cycle : Cycle} {markers : List Marker} (h : cycle.In markers) :
    cycle.dAt < markers.length := (List.getElem?_eq_some_iff.mp h.d.1).1

namespace Integration

/-- The last cycle, and the markers before it. -/
def lastCycle (markers : List Marker) : Option (List Marker × Cycle) :=
  match splitLast (ofKind .outputEnd) markers with
  | none => none
  | some (beforeD, d, _) =>
    match splitLast (ofKind .outputStart) beforeD with
    | none => none
    | some (beforeC, c, _) =>
      match splitLast (ofKind .commandStart) beforeC with
      | none => none
      | some (beforeB, b, _) => some (beforeB, ⟨beforeB.length, b, beforeC.length, c, beforeD.length, d⟩)

/-- The loop of `completed_command_count`; each round leaves fewer markers. -/
def countBack : ℕ → List Marker → ℕ
  | 0, _ => 0
  | fuel + 1, markers =>
    match splitLast (ofKind .outputEnd) markers with
    | none => 0
    | some (beforeD, _, _) =>
      match splitLast (ofKind .outputStart) beforeD with
      | none => 0
      | some (beforeC, _, _) =>
        match splitLast (ofKind .commandStart) beforeC with
        | none => 0
        | some (beforeB, _, _) => countBack fuel beforeB + 1

def completedCommandCount (s : Integration) : ℕ := countBack s.markers.length s.markers

/-- At most so many cycles, oldest first. -/
def cyclesBack : ℕ → List Marker → List Cycle
  | 0, _ => []
  | limit + 1, markers =>
    match lastCycle markers with
    | none => []
    | some (before, cycle) => cyclesBack limit before ++ [cycle]

/-- All cycles of some markers. -/
def cycles (markers : List Marker) : List Cycle := cyclesBack markers.length markers

def regionOf (s : Integration) (cycle : Cycle) : CapturedRegion := s.completedCommand cycle.b cycle.c cycle.d

/-- What lies between and after the markers of the last cycle. -/
structure Between (x y z : List Marker) : Prop where
  b : ∀ m ∈ x, m.kind ≠ .commandStart
  c : ∀ m ∈ y, m.kind ≠ .outputStart
  d : ∀ m ∈ z, m.kind ≠ .outputEnd

theorem ofKind_eq_false {kind : MarkerKind} {l : List Marker} :
    (∀ m ∈ l, ofKind kind m = false) ↔ ∀ m ∈ l, m.kind ≠ kind := by
  simp [ofKind]

theorem lastCycle_build {b c d : Marker} {x y z : List Marker} (before : List Marker) (hb : b.kind = .commandStart)
    (hc : c.kind = .outputStart) (hd : d.kind = .outputEnd) (h : Between x y z) :
    lastCycle (before ++ b :: (x ++ c :: (y ++ d :: z))) = some (before,
      ⟨before.length, b, before.length + 1 + x.length, c, before.length + 1 + x.length + 1 + y.length, d⟩) := by
  have hsplitD : splitLast (ofKind .outputEnd) (before ++ b :: (x ++ c :: (y ++ d :: z))) =
      some (before ++ b :: (x ++ c :: y), d, z) := by
    have hkind : ofKind .outputEnd d = true := by simp [ofKind, hd]
    have hlast := splitLast_append (before ++ b :: (x ++ c :: y)) hkind (ofKind_eq_false.mpr h.d)
    simpa using hlast
  have hsplitC : splitLast (ofKind .outputStart) (before ++ b :: (x ++ c :: y)) = some (before ++ b :: x, c, y) := by
    have hkind : ofKind .outputStart c = true := by simp [ofKind, hc]
    have hlast := splitLast_append (before ++ b :: x) hkind (ofKind_eq_false.mpr h.c)
    simpa using hlast
  have hsplitB : splitLast (ofKind .commandStart) (before ++ b :: x) = some (before, b, x) :=
    splitLast_append before (by simp [ofKind, hb]) (ofKind_eq_false.mpr h.b)
  unfold lastCycle
  rw [hsplitD]
  dsimp only
  rw [hsplitC]
  dsimp only
  rw [hsplitB]
  simp only [List.length_append, List.length_cons, Option.some.injEq, Prod.mk.injEq, Cycle.mk.injEq, true_and,
    and_true]
  omega

theorem lastCycle_eq_some {markers before : List Marker} {cycle : Cycle}
    (h : lastCycle markers = some (before, cycle)) :
    ∃ x y z, markers = before ++ cycle.b :: (x ++ cycle.c :: (y ++ cycle.d :: z)) ∧ Between x y z ∧
      cycle.b.kind = .commandStart ∧ cycle.c.kind = .outputStart ∧ cycle.d.kind = .outputEnd ∧
      cycle.bAt = before.length ∧ cycle.cAt = before.length + 1 + x.length ∧
      cycle.dAt = before.length + 1 + x.length + 1 + y.length := by
  unfold lastCycle at h
  split at h
  · cases h
  · rename_i beforeD d z hd
    split at h
    · cases h
    · rename_i beforeC c y hc
      split at h
      · cases h
      · rename_i beforeB b x hb
        cases h
        obtain ⟨rfl, hdkind, hz⟩ := splitLast_eq_some hd
        obtain ⟨rfl, hckind, hy⟩ := splitLast_eq_some hc
        obtain ⟨rfl, hbkind, hx⟩ := splitLast_eq_some hb
        refine ⟨x, y, z, by simp, ⟨ofKind_eq_false.mp hx, ofKind_eq_false.mp hy, ofKind_eq_false.mp hz⟩,
          by simpa [ofKind] using hbkind, by simpa [ofKind] using hckind, by simpa [ofKind] using hdkind, rfl, ?_, ?_⟩
        · simp only [List.length_append, List.length_cons]
          omega
        · simp only [List.length_append, List.length_cons]
          omega

theorem length_lastCycle {markers before : List Marker} {cycle : Cycle}
    (h : lastCycle markers = some (before, cycle)) : before.length + 2 < markers.length := by
  obtain ⟨x, y, z, rfl, -⟩ := lastCycle_eq_some h
  simp only [List.length_append, List.length_cons]
  omega

/-- A limit that the markers do not reach does not matter. -/
theorem cyclesBack_of_le {limit : ℕ} {markers : List Marker} (h : markers.length ≤ limit) :
    cyclesBack limit markers = cycles markers := by
  unfold cycles
  induction hlen : markers.length using Nat.strong_induction_on generalizing limit markers with
  | _ n ih =>
    subst hlen
    cases hcycle : lastCycle markers with
    | none =>
      cases limit with
      | zero =>
        have hzero : markers.length = 0 := by omega
        rw [hzero]
      | succ limit =>
        cases markers with
        | nil => rw [cyclesBack, hcycle]; rfl
        | cons m markers => rw [cyclesBack, List.length_cons, cyclesBack, hcycle]
    | some parts =>
      obtain ⟨before, cycle⟩ := parts
      have hlt := length_lastCycle hcycle
      obtain ⟨n, hn⟩ : ∃ n, markers.length = n + 1 := ⟨markers.length - 1, by omega⟩
      cases limit with
      | zero => omega
      | succ limit =>
        rw [hn, cyclesBack, cyclesBack, hcycle]
        dsimp only
        have hshorter (m : ℕ) (hm : before.length ≤ m) : cyclesBack m before = cyclesBack before.length before :=
          ih before.length (by omega) hm rfl
        rw [hshorter limit (by omega), hshorter n (by omega)]

theorem cycles_eq (markers : List Marker) :
    cycles markers = match lastCycle markers with
      | none => []
      | some (before, cycle) => cycles before ++ [cycle] := by
  cases hcycle : lastCycle markers with
  | none =>
    rw [← cyclesBack_of_le (Nat.le_succ markers.length), cyclesBack, hcycle]
  | some parts =>
    obtain ⟨before, cycle⟩ := parts
    have hlt := length_lastCycle hcycle
    rw [← cyclesBack_of_le (Nat.le_succ markers.length), cyclesBack, hcycle]
    dsimp only
    rw [cyclesBack_of_le (by omega)]

/-- With a limit, the last cycles are taken. -/
theorem cyclesBack_eq_drop (limit : ℕ) (markers : List Marker) :
    cyclesBack limit markers = (cycles markers).drop ((cycles markers).length - limit) := by
  induction limit generalizing markers with
  | zero => rw [cyclesBack, Nat.sub_zero, List.drop_length]
  | succ limit ih =>
    rw [cyclesBack, cycles_eq]
    cases hcycle : lastCycle markers with
    | none => exact List.drop_nil.symm
    | some parts =>
      obtain ⟨before, cycle⟩ := parts
      dsimp only
      rw [ih, List.length_append, List.length_singleton, Nat.add_sub_add_right,
        List.drop_append_of_le_length (Nat.sub_le _ _)]

/-! ## Regions -/

theorem captureBack_eq (s : Integration) (limit : ℕ) (markers : List Marker) :
    s.captureBack markers limit = (cyclesBack limit markers).map s.regionOf := by
  induction limit generalizing markers with
  | zero => rfl
  | succ limit ih =>
    unfold captureBack cyclesBack lastCycle
    cases splitLast (ofKind .outputEnd) markers with
    | none => rfl
    | some atD =>
      obtain ⟨beforeD, d, -⟩ := atD
      dsimp only
      cases splitLast (ofKind .outputStart) beforeD with
      | none => rfl
      | some atC =>
        obtain ⟨beforeC, c, -⟩ := atC
        dsimp only
        cases splitLast (ofKind .commandStart) beforeC with
        | none => rfl
        | some atB =>
          obtain ⟨beforeB, b, -⟩ := atB
          dsimp only
          rw [ih, List.map_append]
          rfl

theorem countBack_eq (fuel : ℕ) (markers : List Marker) : countBack fuel markers = (cyclesBack fuel markers).length := by
  induction fuel generalizing markers with
  | zero => rfl
  | succ fuel ih =>
    unfold countBack cyclesBack lastCycle
    cases splitLast (ofKind .outputEnd) markers with
    | none => rfl
    | some atD =>
      obtain ⟨beforeD, d, -⟩ := atD
      dsimp only
      cases splitLast (ofKind .outputStart) beforeD with
      | none => rfl
      | some atC =>
        obtain ⟨beforeC, c, -⟩ := atC
        dsimp only
        cases splitLast (ofKind .commandStart) beforeC with
        | none => rfl
        | some atB =>
          obtain ⟨beforeB, b, -⟩ := atB
          dsimp only
          rw [ih, List.length_append]
          rfl

theorem in_lastCycle {markers before : List Marker} {cycle : Cycle} (h : lastCycle markers = some (before, cycle)) :
    cycle.In markers ∧ cycle.bAt = before.length := by
  obtain ⟨x, y, z, rfl, -, hb, hc, hd, hbAt, hcAt, hdAt⟩ := lastCycle_eq_some h
  refine ⟨⟨⟨?_, hb⟩, ⟨?_, hc⟩, ⟨?_, hd⟩, by omega⟩, hbAt⟩
  · rw [hbAt]
    simp
  · rw [hcAt, List.getElem?_append_right (by omega)]
    have hplace : before.length + 1 + x.length - before.length = x.length + 1 := by omega
    rw [hplace, List.getElem?_cons_succ]
    simp
  · rw [hdAt, List.getElem?_append_right (by omega)]
    have hplace : before.length + 1 + x.length + 1 + y.length - before.length = x.length + 1 + y.length + 1 := by omega
    rw [hplace, List.getElem?_cons_succ, List.getElem?_append_right (by omega)]
    have hplace' : x.length + 1 + y.length - x.length = y.length + 1 := by omega
    rw [hplace', List.getElem?_cons_succ]
    simp

/-- The cycles are in order and apart, and their markers are where they say. -/
theorem cycles_inOrder (markers : List Marker) :
    (∀ cycle ∈ cycles markers, cycle.In markers) ∧
      (cycles markers).Pairwise (fun first second => first.dAt < second.bAt) := by
  induction hlen : markers.length using Nat.strong_induction_on generalizing markers with
  | _ n ih =>
    subst hlen
    rw [cycles_eq]
    cases hcycle : lastCycle markers with
    | none =>
      dsimp only
      exact ⟨fun cycle hmem => absurd hmem List.not_mem_nil, .nil⟩
    | some parts =>
      obtain ⟨before, last⟩ := parts
      have hlt := length_lastCycle hcycle
      obtain ⟨hin, hpairs⟩ := ih before.length (by omega) before rfl
      obtain ⟨hlast, hbAt⟩ := in_lastCycle hcycle
      obtain ⟨x, y, z, hmarkers, -⟩ := lastCycle_eq_some hcycle
      dsimp only
      constructor
      · intro cycle hmem
        obtain hmem | hmem := List.mem_append.mp hmem
        · rw [hmarkers]
          exact (hin cycle hmem).append _
        · rw [List.mem_singleton.mp hmem]
          exact hlast
      · refine List.pairwise_append.mpr ⟨hpairs, List.pairwise_singleton _ _, fun cycle hmem other hother => ?_⟩
        rw [List.mem_singleton.mp hother, hbAt]
        exact (hin cycle hmem).dAt_lt

/-! ## Which ends are reported -/

/-- A D right after its own C and B, prompts aside, and the markers after it. -/
structure Own (markers : List Marker) (cycle : Cycle) (after : List Marker) : Prop where
  parts : ∃ before p q, markers = before ++ cycle.b :: (p ++ cycle.c :: (q ++ cycle.d :: after)) ∧
    (∀ m ∈ p, m.kind = .promptStart) ∧ (∀ m ∈ q, m.kind = .promptStart) ∧ cycle.bAt = before.length ∧
    cycle.cAt = before.length + 1 + p.length ∧ cycle.dAt = before.length + 1 + p.length + 1 + q.length
  b : cycle.b.kind = .commandStart
  c : cycle.c.kind = .outputStart
  d : cycle.d.kind = .outputEnd

/-- Markers that end no command from before them: cycles one after another, each with no further B before its
C, no further C before its D and no further D after it, and no D before the first. -/
inductive Closed : List Marker → Prop
  | noEnd {markers : List Marker} : (∀ m ∈ markers, m.kind ≠ .outputEnd) → Closed markers
  | cycle {before x y z : List Marker} {b c d : Marker} : Closed before → b.kind = .commandStart →
      c.kind = .outputStart → d.kind = .outputEnd → Between x y z →
      Closed (before ++ b :: (x ++ c :: (y ++ d :: z)))

theorem closed_iff (markers : List Marker) : Closed markers ↔
    (∀ m ∈ markers, m.kind ≠ .outputEnd) ∨ ∃ before cycle, lastCycle markers = some (before, cycle) ∧ Closed before := by
  constructor
  · intro h
    cases h with
    | noEnd h => exact .inl h
    | cycle hbefore hb hc hd hbetween => exact .inr ⟨_, _, lastCycle_build _ hb hc hd hbetween, hbefore⟩
  · rintro (h | ⟨before, cycle, hcycle, hbefore⟩)
    · exact .noEnd h
    · obtain ⟨x, y, z, rfl, hbetween, hb, hc, hd, -⟩ := lastCycle_eq_some hcycle
      exact .cycle hbefore hb hc hd hbetween

theorem ne_of_prompt {l : List Marker} (h : ∀ m ∈ l, m.kind = .promptStart) {kind : MarkerKind}
    (hkind : kind ≠ .promptStart) : ∀ m ∈ l, m.kind ≠ kind := by
  intro m hm heq
  exact hkind (heq.symm.trans (h m hm))

/-- If what follows has a D but no cycle, the last D takes the B in front. -/
theorem lastCycle_of_open {markers after : List Marker} {cycle : Cycle} (h : Own markers cycle after)
    (hend : ∃ m ∈ after, m.kind = .outputEnd) (hnone : lastCycle after = none) :
    ∃ before swallowing, lastCycle markers = some (before, swallowing) ∧ swallowing.dAt ≠ cycle.dAt ∧
      before.length ≤ cycle.dAt := by
  obtain ⟨before, p, q, rfl, hp, hq, hbAt, hcAt, hdAt⟩ := h.parts
  obtain ⟨m, hm, hmkind⟩ := hend
  unfold lastCycle at hnone
  cases hsplitD : splitLast (ofKind .outputEnd) after with
  | none =>
    have hnot := splitLast_eq_none hsplitD m hm
    simp [ofKind, hmkind] at hnot
  | some partsD =>
    obtain ⟨u, d', z⟩ := partsD
    rw [hsplitD] at hnone
    obtain ⟨rfl, hd', hz⟩ := splitLast_eq_some hsplitD
    have hd'kind : d'.kind = .outputEnd := by simpa [ofKind] using hd'
    dsimp only at hnone
    cases hsplitC : splitLast (ofKind .outputStart) u with
    | none =>
      have hy : ∀ m ∈ q ++ cycle.d :: u, m.kind ≠ .outputStart := by
        intro m hm
        obtain hm | hm := List.mem_append.mp hm
        · exact ne_of_prompt hq (by decide) m hm
        · obtain rfl | hm := List.mem_cons.mp hm
          · rw [h.d]
            decide
          · exact ofKind_eq_false.mp (splitLast_eq_none hsplitC) m hm
      have hlast := lastCycle_build before h.b h.c hd'kind
        ⟨ne_of_prompt hp (by decide), hy, ofKind_eq_false.mp hz⟩
      refine ⟨before, _, by simpa using hlast, ?_, by omega⟩
      dsimp only
      omega
    | some partsC =>
      obtain ⟨u1, c', y⟩ := partsC
      rw [hsplitC] at hnone
      obtain ⟨rfl, hc', hy⟩ := splitLast_eq_some hsplitC
      have hc'kind : c'.kind = .outputStart := by simpa [ofKind] using hc'
      dsimp only at hnone
      cases hsplitB : splitLast (ofKind .commandStart) u1 with
      | some partsB =>
        obtain ⟨u0, b', x⟩ := partsB
        rw [hsplitB] at hnone
        cases hnone
      | none =>
        have hx : ∀ m ∈ p ++ cycle.c :: (q ++ cycle.d :: u1), m.kind ≠ .commandStart := by
          intro m hm
          obtain hm | hm := List.mem_append.mp hm
          · exact ne_of_prompt hp (by decide) m hm
          · obtain rfl | hm := List.mem_cons.mp hm
            · rw [h.c]
              decide
            · obtain hm | hm := List.mem_append.mp hm
              · exact ne_of_prompt hq (by decide) m hm
              · obtain rfl | hm := List.mem_cons.mp hm
                · rw [h.d]
                  decide
                · exact ofKind_eq_false.mp (splitLast_eq_none hsplitB) m hm
        have hlast := lastCycle_build before h.b hc'kind hd'kind
          ⟨hx, ofKind_eq_false.mp hy, ofKind_eq_false.mp hz⟩
        refine ⟨before, _, by simpa using hlast, ?_, by omega⟩
        dsimp only
        omega

/-- A D is reported as the end of its own region exactly if what follows is closed. -/
theorem mem_cycles_iff {markers after : List Marker} {cycle : Cycle} (h : Own markers cycle after) :
    cycle ∈ cycles markers ↔ Closed after := by
  induction hlen : after.length using Nat.strong_induction_on generalizing markers after with
  | _ n ih =>
    subst hlen
    obtain ⟨before, p, q, hmarkers, hp, hq, hbAt, hcAt, hdAt⟩ := h.parts
    by_cases hend : ∃ m ∈ after, m.kind = .outputEnd
    · cases hafter : lastCycle after with
      | none =>
        obtain ⟨rest, swallowing, hlast, hne, hle⟩ := lastCycle_of_open h hend hafter
        refine iff_of_false ?_ ?_
        · rw [cycles_eq, hlast]
          intro hmem
          obtain hmem | hmem := List.mem_append.mp hmem
          · have hlt := ((cycles_inOrder rest).1 cycle hmem).dAt_lt
            omega
          · exact hne (by rw [List.mem_singleton.mp hmem])
        · rw [closed_iff]
          rintro (hnone | ⟨rest', cycle', hcycle', -⟩)
          · obtain ⟨m, hm, hkind⟩ := hend
            exact hnone m hm hkind
          · rw [hafter] at hcycle'
            cases hcycle'
      | some parts =>
        obtain ⟨u, last⟩ := parts
        obtain ⟨x, y, z, rfl, hbetween, hb, hc, hd, -⟩ := lastCycle_eq_some hafter
        have hclosed : Closed (u ++ last.b :: (x ++ last.c :: (y ++ last.d :: z))) ↔ Closed u := by
          rw [closed_iff]
          constructor
          · rintro (hnone | ⟨u', last', hlast', hu'⟩)
            · obtain ⟨m, hm, hkind⟩ := hend
              exact absurd hkind (hnone m hm)
            · rw [hafter, Option.some.injEq, Prod.mk.injEq] at hlast'
              rw [hlast'.1]
              exact hu'
          · exact fun hu => .inr ⟨u, last, hafter, hu⟩
        have hwhole := lastCycle_build (before ++ cycle.b :: (p ++ cycle.c :: (q ++ cycle.d :: u))) hb hc hd hbetween
        have hsame : before ++ cycle.b :: (p ++ cycle.c :: (q ++ cycle.d :: u)) ++
            last.b :: (x ++ last.c :: (y ++ last.d :: z)) = markers := by
          rw [hmarkers]
          simp
        rw [hsame] at hwhole
        have hown : Own (before ++ cycle.b :: (p ++ cycle.c :: (q ++ cycle.d :: u))) cycle u :=
          ⟨⟨before, p, q, rfl, hp, hq, hbAt, hcAt, hdAt⟩, h.b, h.c, h.d⟩
        have hrest := ih u.length (by simp only [List.length_append, List.length_cons]; omega) hown rfl
        rw [hclosed, ← hrest, cycles_eq, hwhole]
        dsimp only
        rw [List.mem_append, List.mem_singleton, or_iff_left]
        intro heq
        have hplace := congrArg Cycle.bAt heq
        simp only [List.length_append, List.length_cons] at hplace
        omega
    · have hnone : ∀ m ∈ after, m.kind ≠ .outputEnd := fun m hm hkind => hend ⟨m, hm, hkind⟩
      have hlast := lastCycle_build before h.b h.c h.d
        ⟨ne_of_prompt hp (by decide), ne_of_prompt hq (by decide), hnone⟩
      rw [← hmarkers, ← hdAt, ← hcAt, ← hbAt] at hlast
      refine iff_of_true ?_ (.noEnd hnone)
      rw [cycles_eq, hlast]
      exact List.mem_append_right _ List.mem_cons_self

/-! ## Counted as captured -/

/-- Completed commands are counted as they are captured: all of them without a limit, the last ones with one,
in order and apart, and each D that follows its own C and B ends its own region. -/
structure CountedAsCaptured (s : Integration) : Prop where
  count : ∀ limit, s.markers.length ≤ limit → s.completedCommandCount = (s.captureRecentCommands limit).length
  last : ∀ k limit, s.markers.length ≤ limit → s.captureRecentCommands k =
    (s.captureRecentCommands limit).drop ((s.captureRecentCommands limit).length - k)
  regions : ∀ limit, s.markers.length ≤ limit → s.captureRecentCommands limit = (cycles s.markers).map s.regionOf
  places : ∀ cycle ∈ cycles s.markers, cycle.In s.markers
  inOrder : (cycles s.markers).Pairwise (fun first second => first.dAt < second.bAt)
  own : ∀ cycle after, Own s.markers cycle after → cycle ∈ cycles s.markers

theorem countedAsCaptured_iff (s : Integration) :
    CountedAsCaptured s ↔ ∀ cycle after, Own s.markers cycle after → Closed after := by
  have hall : ∀ limit, s.markers.length ≤ limit → s.captureRecentCommands limit = (cycles s.markers).map s.regionOf := by
    intro limit hlimit
    rw [captureRecentCommands, captureBack_eq, cyclesBack_of_le hlimit]
  constructor
  · intro h cycle after hown
    exact (mem_cycles_iff hown).mp (h.own cycle after hown)
  · intro h
    obtain ⟨hplaces, hinOrder⟩ := cycles_inOrder s.markers
    refine ⟨fun limit hlimit => ?_, fun k limit hlimit => ?_, hall, hplaces, hinOrder, fun cycle after hown => ?_⟩
    · rw [hall limit hlimit, completedCommandCount, countBack_eq, List.length_map]
      rfl
    · rw [hall limit hlimit, captureRecentCommands, captureBack_eq, cyclesBack_eq_drop, List.map_drop, List.length_map]
    · exact (mem_cycles_iff hown).mpr (h cycle after hown)

/-- A command that ends, and a second D before the next prompt. -/
def strayEnd : Integration :=
  { Integration.new with
    markers := [⟨.commandStart, 0, 8, none, none, none⟩, ⟨.outputStart, 11, 19, none, none, some "ls"⟩,
      ⟨.outputEnd, 19, 29, some 0, none, none⟩, ⟨.outputEnd, 29, 41, some 130, none, none⟩] }

/-- The region of the command is reported with the second D's exit code. -/
theorem strayEnd_swallows : ¬ CountedAsCaptured strayEnd := by
  intro h
  have hown : Own strayEnd.markers ⟨0, ⟨.commandStart, 0, 8, none, none, none⟩, 1,
      ⟨.outputStart, 11, 19, none, none, some "ls"⟩, 2, ⟨.outputEnd, 19, 29, some 0, none, none⟩⟩
      [⟨.outputEnd, 29, 41, some 130, none, none⟩] :=
    ⟨⟨[], [], [], rfl, by nofun, by nofun, rfl, rfl, rfl⟩, rfl, rfl, rfl⟩
  have hclosed := (mem_cycles_iff hown).mp (h.own _ _ hown)
  obtain hnone | ⟨before, cycle, hcycle, -⟩ := (closed_iff _).mp hclosed
  · exact hnone _ List.mem_cons_self rfl
  · cases hcycle

end Integration

end Haruspex.Shell
