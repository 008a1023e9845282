import Haruspex.Calendar.Window

/-! The entries of a window are just what happens in it, in order, when nothing is gone on with from before it and
printed times are in order. -/
namespace Haruspex.Calendar
set_option autoImplicit false

variable {Zone Day Naive Rule : Type} {lib : Libraries Zone Day Naive Rule} {occurs : Occurs Rule}
variable {event : List Property} {raw : RawEvent} {start : ℤ} {anchor : RecurrenceAnchor Zone Naive} {here : Zone}
variable {opens closes : ℤ} {source : EventSource} {replaced : List (String × ℤ)}

/-! ## One event -/

theorem ownLength_eq (hreads : lib.SameReadings event here) (hraw : readRaw event = some raw)
    (hstart : lib.eventStart raw here = some (start, anchor)) :
    lib.ownLength event raw start here = lib.statedLength raw start here := by
  unfold Libraries.ownLength Libraries.statedLength Libraries.laterEnd
  rewrite [(hreads raw start anchor hraw hstart).1]
  generalize (raw.dtend.bind fun dtend =>
    lib.instantOf raw.dtend_is_date dtend.toList raw.dtstart_tzid here).filter (start < ·) = stop
  cases stop <;> rfl

theorem ownLength_nonneg : 0 ≤ lib.ownLength event raw start here := by
  unfold Libraries.ownLength
  split
  · rename_i stop hstop
    have hlater := (Option.filter_eq_some_iff.mp hstop).2
    rw [decide_eq_true_eq] at hlater
    omega
  · have hdefault : 0 ≤ defaultLength raw := by
      unfold defaultLength oneDay
      split <;> omega
    cases hlength : (raw.duration.bind fun duration => stated duration.toList).filter (0 < ·) with
    | none => exact hdefault
    | some length =>
      have hpositive := (Option.filter_eq_some_iff.mp hlength).2
      rw [decide_eq_true_eq] at hpositive
      exact Int.le_of_lt hpositive

/-- The entries of the occurrences that are gone through. -/
theorem shown_eq {length : ℤ} {make : ℤ → ℤ → CalendarEvent} {excluded starts : List ℤ}
    (h : ∀ s ∈ starts, s ∉ excluded → lib.first ≤ s + length ∧ s + length ≤ lib.last) :
    lib.shown length opens closes make excluded starts =
      some ((starts.filter fun s => s ∉ excluded ∧ opens < s + length ∧ s < closes).map fun s => make s (s + length)) := by
  induction starts with
  | nil => rfl
  | cons s starts ih =>
    rw [List.forall_mem_cons] at h
    unfold Libraries.shown
    rw [ih h.2]
    by_cases hexcluded : s ∈ excluded
    · simp [hexcluded]
    · rw [if_neg hexcluded, plus_eq_some.mpr ⟨h.1 hexcluded, rfl⟩]
      by_cases hmeets : opens < s + length ∧ s < closes
      · simp [hexcluded, hmeets]
      · have hdrop : ¬ (s ∉ excluded ∧ opens < s + length ∧ s < closes) := fun hall => hmeets hall.2
        rw [List.filter_cons_of_neg (by simpa using hdrop)]
        simp [hmeets]

/-- What is left out by the limit is not in the window. -/
theorem filter_take {l : List ℤ} {n : ℕ} (hsorted : l.Pairwise (· ≤ ·))
    (hfew : (l.filter fun s => s < closes).length ≤ n) :
    (l.take n).filter (fun s => s < closes) = l.filter fun s => s < closes := by
  induction l generalizing n with
  | nil => simp
  | cons s l ih =>
    rw [List.pairwise_cons] at hsorted
    cases n with
    | zero =>
      rw [Nat.le_zero, List.length_eq_zero_iff] at hfew
      rw [hfew]
      rfl
    | succ n =>
      rw [List.take_succ_cons]
      by_cases hs : s < closes
      · rw [List.filter_cons_of_pos (by simpa using hs), List.length_cons] at hfew
        rw [List.filter_cons_of_pos (by simpa using hs), List.filter_cons_of_pos (by simpa using hs),
          ih hsorted.2 (by omega)]
      · have hlate : ∀ m : List ℤ, m.Sublist l → m.filter (fun s => s < closes) = [] := by
          intro m hm
          rw [List.filter_eq_nil_iff]
          intro t ht
          have hle := hsorted.1 t (hm.subset ht)
          simp only [decide_eq_true_eq]
          omega
        rw [List.filter_cons_of_neg (by simpa using hs), List.filter_cons_of_neg (by simpa using hs),
          hlate _ (List.take_sublist n l), hlate l (List.Sublist.refl l)]

/-- What the code keeps of what happens. -/
def Libraries.Kept (lib : Libraries Zone Day Naive Rule) (event : List Property) (raw : RawEvent) (start : ℤ)
    (anchor : RecurrenceAnchor Zone Naive) (opens : ℤ) (here : Zone) (s : ℤ) : Prop :=
  ((lib.ruleOf raw anchor).isSome → opens ≤ s) ∧ (lib.ownLength event raw start here = 0 → opens < s)

instance (s : ℤ) : Decidable (lib.Kept event raw start anchor opens here s) :=
  inferInstanceAs (Decidable (_ ∧ _))

theorem keeps_meeting {s length : ℤ} {P : Prop} (hlength : 0 ≤ length) :
    (Meets opens closes s length ∧ P ∧ (length = 0 → opens < s)) ↔ (opens < s + length ∧ s < closes) ∧ P := by
  unfold Meets
  constructor
  · rintro ⟨⟨hcloses, hmeets⟩, hp, hzero⟩
    exact ⟨⟨by omega, hcloses⟩, hp⟩
  · rintro ⟨⟨hopens, hcloses⟩, hp⟩
    exact ⟨⟨hcloses, .inl hopens⟩, hp, by omega⟩

/-- The occurrences that the code shows, among those that happen. -/
theorem filter_occurrenceStarts (hrules : Rules lib occurs) {events : List (List Property)}
    (hfew : lib.Few occurs events opens closes here) (hevent : event ∈ events)
    (hreads : lib.SameReadings event here) (hraw : readRaw event = some raw)
    (hstart : lib.eventStart raw here = some (start, anchor)) :
    ((lib.occurrenceStarts raw start anchor opens closes).filter fun s =>
        s ∉ lib.excluded raw here replaced ∧ opens < s + lib.statedLength raw start here ∧ s < closes) =
      (lib.happening occurs event raw start anchor opens closes here replaced).filter fun s =>
        lib.Kept event raw start anchor opens here s := by
  have hexcluded : lib.excluded raw here replaced = lib.ownExdates event here ++ overridden raw replaced := by
    rw [(hreads raw start anchor hraw hstart).2]
    rfl
  have hlength := ownLength_eq hreads hraw hstart
  have hnonneg := @ownLength_nonneg _ _ _ _ lib event raw start here
  rw [Libraries.happening, List.filter_filter, ← hlength, hexcluded]
  unfold Libraries.occurrenceStarts Libraries.starts
  cases hrule : lib.ruleOf raw anchor with
  | none =>
    refine List.filter_congr fun s _ => ?_
    rw [← Bool.decide_and, decide_eq_decide]
    have hkeeps := @keeps_meeting opens closes s _ True hnonneg
    simp only [Libraries.Kept, hrule, Option.isSome_none, Bool.false_eq_true, false_implies, true_and] at hkeeps ⊢
    tauto
  | some set =>
    dsimp only
    have hall := hrules.all set opens closes maxOccurrencesPerEvent
    have hsorted := (hrules.sorted set closes).filter fun s => decide (opens ≤ s)
    have hlimit : (((occurs set closes).filter fun s => opens ≤ s).filter fun s => s < closes).length ≤
        maxOccurrencesPerEvent := by
      rw [List.filter_filter]
      refine Nat.le_trans (Nat.le_of_eq ?_) (hfew event hevent raw start anchor set hraw hstart hrule)
      congr 1
      refine List.filter_congr fun s _ => ?_
      rw [← Bool.decide_and, decide_eq_decide]
      tauto
    have htake := filter_take hsorted hlimit
    have hsplit : ∀ l : List ℤ, (l.filter fun s => s ∉ lib.ownExdates event here ++ overridden raw replaced ∧
        opens < s + lib.ownLength event raw start here ∧ s < closes) =
          (l.filter fun s => s < closes).filter fun s => s ∉ lib.ownExdates event here ++ overridden raw replaced ∧
            opens < s + lib.ownLength event raw start here := by
      intro l
      rw [List.filter_filter]
      refine List.filter_congr fun s _ => ?_
      rw [← Bool.decide_and, decide_eq_decide]
      tauto
    rw [hall, hsplit, htake, ← hsplit, List.filter_filter]
    refine List.filter_congr fun s _ => ?_
    rw [← Bool.decide_and, ← Bool.decide_and, decide_eq_decide]
    have hkeeps := @keeps_meeting opens closes s _ (opens ≤ s) hnonneg
    simp only [Libraries.Kept, hrule, Option.isSome_some, true_implies] at hkeeps ⊢
    tauto

/-! ## All events -/

/-- What the code shows of an event, each start with its entry. -/
def Libraries.keptOf (lib : Libraries Zone Day Naive Rule) (occurs : Occurs Rule) (event : List Property)
    (source : EventSource) (opens closes : ℤ) (here : Zone) (replaced : List (String × ℤ)) :
    List (ℤ × CalendarEvent) :=
  match readRaw event with
  | none => []
  | some raw =>
    match lib.eventStart raw here with
    | none => []
    | some (start, anchor) =>
      ((lib.happening occurs event raw start anchor opens closes here replaced).filter fun s =>
        lib.Kept event raw start anchor opens here s).map fun s =>
          (s, lib.entry raw source here s (s + lib.ownLength event raw start here))

theorem expandEvent_kept (hrules : Rules lib occurs) {events : List (List Property)}
    (hfew : lib.Few occurs events opens closes here) (hevent : event ∈ events)
    (hreads : lib.SameReadings event here) (hends : lib.EndsInRange event opens closes here replaced) :
    lib.expandEvent event source opens closes here replaced =
      some ((lib.keptOf occurs event source opens closes here replaced).map Prod.snd) := by
  unfold Libraries.keptOf
  cases hraw : readRaw event with
  | none => exact expandEvent_skips (by rw [hraw]; rfl)
  | some raw =>
    dsimp only
    cases hstart : lib.eventStart raw here with
    | none => exact expandEvent_skips (by rw [hraw, Option.bind_some, hstart])
    | some pair =>
      obtain ⟨start, anchor⟩ := pair
      obtain ⟨hfits, hrange⟩ := hends raw start anchor hraw hstart
      dsimp only
      rw [expandEvent_eq hraw hstart, eventLength_eq hfits, Option.bind_some, shown_eq hrange,
        filter_occurrenceStarts hrules hfew hevent hreads hraw hstart, ← ownLength_eq hreads hraw hstart, List.map_map]
      rfl

theorem keptOf_sublist :
    (lib.keptOf occurs event source opens closes here replaced).Sublist
      (lib.expectedOf occurs event source opens closes here replaced) := by
  unfold Libraries.keptOf Libraries.expectedOf
  cases readRaw event with
  | none => exact List.Sublist.refl _
  | some raw =>
    dsimp only
    cases lib.eventStart raw here with
    | none => exact List.Sublist.refl _
    | some pair => exact List.filter_sublist.map _

/-- All that happens of an event is shown just when none of it started before the window or has no length at its
start. -/
theorem keptOf_eq_iff :
    lib.keptOf occurs event source opens closes here replaced =
        lib.expectedOf occurs event source opens closes here replaced ↔
      lib.NoneBefore occurs event opens closes here replaced := by
  unfold Libraries.keptOf Libraries.expectedOf Libraries.NoneBefore
  cases hraw : readRaw event with
  | none => simp
  | some raw =>
    dsimp only
    cases hstart : lib.eventStart raw here with
    | none =>
      refine ⟨fun _ raw' start anchor hraw' hstart' => ?_, fun _ => rfl⟩
      cases hraw'
      rw [hstart] at hstart'
      cases hstart'
    | some pair =>
      obtain ⟨start, anchor⟩ := pair
      dsimp only
      constructor
      · intro heq raw' start' anchor' hraw' hstart' s hs
        cases hraw'
        rw [hstart] at hstart'
        cases hstart'
        have hlength := congrArg List.length heq
        rw [List.length_map, List.length_map, List.length_filter_eq_length_iff] at hlength
        exact of_decide_eq_true (hlength s hs)
      · intro h
        have hkept : ∀ s ∈ lib.happening occurs event raw start anchor opens closes here replaced,
            decide (lib.Kept event raw start anchor opens here s) = true :=
          fun s hs => decide_eq_true (h raw start anchor rfl hstart s hs)
        rw [List.filter_eq_self.mpr hkept]

theorem mapM_of_forall {α β : Type} {f : α → Option β} {g : α → β} {xs : List α} (h : ∀ x ∈ xs, f x = some (g x)) :
    xs.mapM f = some (xs.map g) := by
  induction xs with
  | nil => rfl
  | cons x xs ih =>
    rw [List.forall_mem_cons] at h
    simp [h.1, ih h.2]

theorem forall_of_mapM {α β : Type} {f : α → Option β} {xs : List α} {ys : List β} (h : xs.mapM f = some ys) :
    ∀ x ∈ xs, ∃ y, f x = some y := by
  induction xs generalizing ys with
  | nil => exact List.forall_mem_nil _
  | cons x xs ih =>
    rw [List.mapM_cons] at h
    obtain ⟨y, hy, h⟩ := Option.bind_eq_some_iff.mp h
    obtain ⟨ys', hys, -⟩ := Option.bind_eq_some_iff.mp h
    rw [List.forall_mem_cons]
    exact ⟨⟨y, hy⟩, ih hys⟩

/-- Parts of lists that are as long, put together, as the whole lists are the whole lists. -/
theorem eq_of_length_flatMap {α β : Type} {f g : α → List β} {xs : List α} (hsub : ∀ x ∈ xs, (f x).Sublist (g x))
    (hlength : (xs.flatMap f).length = (xs.flatMap g).length) : ∀ x ∈ xs, f x = g x := by
  have hle : ∀ ys : List α, (∀ y ∈ ys, (f y).Sublist (g y)) → (ys.flatMap f).length ≤ (ys.flatMap g).length := by
    intro ys
    induction ys with
    | nil => exact fun _ => Nat.le_refl _
    | cons y ys ih =>
      intro hys
      rw [List.forall_mem_cons] at hys
      have hhere := hys.1.length_le
      have hrest := ih hys.2
      rw [List.flatMap_cons, List.flatMap_cons, List.length_append, List.length_append]
      omega
  induction xs with
  | nil => exact List.forall_mem_nil _
  | cons x xs ih =>
    rw [List.forall_mem_cons] at hsub
    have hhere := hsub.1.length_le
    have hrest := hle xs hsub.2
    rw [List.flatMap_cons, List.flatMap_cons, List.length_append, List.length_append] at hlength
    rw [List.forall_mem_cons]
    exact ⟨hsub.1.eq_of_length (by omega), ih hsub.2 (by omega)⟩

theorem expected_start {a : ℤ × CalendarEvent} {events : List (List Property)}
    (h : a ∈ lib.expected occurs events source opens closes here) : a.2.start = lib.rfc3339 here a.1 := by
  obtain ⟨event, -, ha⟩ := List.mem_flatMap.mp h
  unfold Libraries.expectedOf at ha
  cases hraw : readRaw event with
  | none => simp [hraw] at ha
  | some raw =>
    cases hstart : lib.eventStart raw here with
    | none => simp [hraw, hstart] at ha
    | some pair =>
      simp only [hraw, hstart] at ha
      obtain ⟨s, -, rfl⟩ := List.mem_map.mp ha
      rfl

/-- Two members of a list that is in order by two measures are in the same order by both. -/
theorem ordered_by_both {α : Type} {l : List α} {f : α → ℤ} {g : α → String} (hf : l.Pairwise fun a b => f a ≤ f b)
    (hg : l.Pairwise fun a b => g a ≤ g b) {a b : α} (ha : a ∈ l) (hb : b ∈ l) (hlt : f a < f b) : g a ≤ g b := by
  induction l with
  | nil => cases ha
  | cons x l ih =>
    rw [List.pairwise_cons] at hf hg
    obtain rfl | hxa := List.mem_cons.mp ha
    · obtain rfl | hxb := List.mem_cons.mp hb
      · omega
      · exact hg.1 b hxb
    · obtain rfl | hxb := List.mem_cons.mp hb
      · have hle := hf.1 a hxa
        omega
      · exact ih hf.2 hg.2 hxa hxb

/-- A window shows just what happens in it when the ends of the occurrences are in range, none of what happens of a
rule started before the window, nothing of no length starts with it, and printed times are in order. -/
theorem shows_iff (hrules : Rules lib occurs) {events : List (List Property)}
    (hfew : lib.Few occurs events opens closes here) (hreads : ∀ event ∈ events, lib.SameReadings event here)
    (hapart : lib.PrintsApart occurs events source opens closes here) :
    lib.Shows occurs events source opens closes here ↔
      (∀ event ∈ events, lib.EndsInRange event opens closes here (lib.replacedSlots events here)) ∧
        (∀ event ∈ events, lib.NoneBefore occurs event opens closes here (lib.replacedSlots events here)) ∧
        lib.PrintsInOrder occurs events source opens closes here := by
  have hparse (hends : ∀ event ∈ events, lib.EndsInRange event opens closes here (lib.replacedSlots events here)) :
      lib.parseEvents events source opens closes here =
        some (((events.flatMap fun event =>
          lib.keptOf occurs event source opens closes here (lib.replacedSlots events here)).map Prod.snd).mergeSort
            fun a b => decide (a.start ≤ b.start)) := by
    have hmap := mapM_of_forall fun event hevent =>
      @expandEvent_kept _ _ _ _ lib occurs event here opens closes source (lib.replacedSlots events here) hrules events
        hfew hevent (hreads event hevent) (hends event hevent)
    rw [Libraries.parseEvents, hmap, Option.bind_eq_bind, Option.bind_some, List.map_flatMap, List.flatMap_def]
  have htrans : ∀ a b c : CalendarEvent, decide (a.start ≤ b.start) = true → decide (b.start ≤ c.start) = true →
      decide (a.start ≤ c.start) = true := by
    intro a b c hab hbc
    exact decide_eq_true (String.le_trans (of_decide_eq_true hab) (of_decide_eq_true hbc))
  have htotal : ∀ a b : CalendarEvent, (decide (a.start ≤ b.start) || decide (b.start ≤ a.start)) = true := by
    intro a b
    rw [Bool.or_eq_true, decide_eq_true_eq, decide_eq_true_eq]
    exact String.le_total a.start b.start
  constructor
  · rintro ⟨out, hout, order, hperm, hinstants, rfl⟩
    have hends : ∀ event ∈ events, lib.EndsInRange event opens closes here (lib.replacedSlots events here) := by
      intro event hevent
      rw [Libraries.parseEvents] at hout
      obtain ⟨lists, hlists, -⟩ := Option.bind_eq_some_iff.mp hout
      exact expandEvent_isSome.mp (forall_of_mapM hlists event hevent)
    rw [hparse hends, Option.some_inj] at hout
    refine ⟨hends, ?_, ?_⟩
    · have hlength := congrArg List.length hout
      rw [List.length_mergeSort, List.length_map, List.length_map, hperm.length_eq] at hlength
      intro event hevent
      exact keptOf_eq_iff.mp (eq_of_length_flatMap (fun _ _ => keptOf_sublist) hlength event hevent)
    · intro a ha b hb hlt
      have hsorted := List.pairwise_mergeSort htrans htotal ((events.flatMap fun event =>
        lib.keptOf occurs event source opens closes here (lib.replacedSlots events here)).map Prod.snd)
      rw [hout, List.pairwise_map] at hsorted
      have hstrings : order.Pairwise fun a b => a.2.start ≤ b.2.start :=
        hsorted.imp fun h => of_decide_eq_true h
      have hboth := ordered_by_both hinstants hstrings (hperm.mem_iff.mpr ha) (hperm.mem_iff.mpr hb) hlt
      rwa [expected_start ha, expected_start hb] at hboth
  · rintro ⟨hends, hbefore, hprints⟩
    have hkept : (events.flatMap fun event =>
        lib.keptOf occurs event source opens closes here (lib.replacedSlots events here)) =
          lib.expected occurs events source opens closes here := by
      rw [Libraries.expected, List.flatMap_def, List.flatMap_def,
        List.map_congr_left fun event hevent => keptOf_eq_iff.mpr (hbefore event hevent)]
    rw [Libraries.Shows, hparse hends, hkept]
    refine ⟨_, rfl, (lib.expected occurs events source opens closes here).mergeSort
      fun a b => decide (a.2.start ≤ b.2.start), List.mergeSort_perm _ _, ?_, ?_⟩
    · have hsorted := List.pairwise_mergeSort (fun a b c => htrans a.2 b.2 c.2) (fun a b => htotal a.2 b.2)
        (lib.expected occurs events source opens closes here)
      refine hsorted.imp_of_mem fun ha hb hle => ?_
      rw [List.mem_mergeSort] at ha hb
      by_contra hlt
      have hlater := hprints _ hb _ ha (Int.lt_of_not_ge hlt)
      have hle' := of_decide_eq_true hle
      rw [expected_start ha, expected_start hb] at hle'
      exact hlt (Int.le_of_eq (hapart _ ha _ hb (String.le_antisymm hle' hlater)))
    · exact (@List.map_mergeSort _ _ (fun a b : ℤ × CalendarEvent => decide (a.2.start ≤ b.2.start))
        (fun a b : CalendarEvent => decide (a.start ≤ b.start)) Prod.snd _ fun _ _ _ _ => rfl).symm

/-! ## A daily event across midnight -/

/-- 2026-09-07T22:00:00Z -/
def evening : ℤ := 1788818400000000000

def hour : ℤ := 3600000000000

/-- Each day from the first evening on. -/
def daily : Occurs Unit := fun _ closes =>
  (List.range ((closes - evening) / oneDay + 1).toNat).map fun k : ℕ => evening + k * oneDay

/-- The libraries, as far as the event that is written at that evening needs them. -/
def utcOnly : Libraries Unit ℤ ℤ Unit where
  parseNaive value :=
    if value = "20260907T220000".toList then some evening
    else if value = "20260908T020000".toList then some (evening + 4 * hour)
    else none
  parseDay _ := none
  midnight day := some (day * oneDay)
  fromUtc naive := naive
  parseZone name := if name = "UTC" then some () else none
  earliest _ naive := some naive
  stamp naive := if naive = evening then "20260907T220000" else ""
  zoneName _ := "UTC"
  parseRule text := if text = "DTSTART:20260907T220000Z\nRRULE:FREQ=DAILY" then some () else none
  all set opens closes limit := ((daily set closes).filter fun s => opens ≤ s).take limit
  rfc3339 _ s :=
    if s = evening then "2026-09-07T22:00:00+00:00"
    else if s = evening + oneDay then "2026-09-08T22:00:00+00:00"
    else ""
  first := -8334601228800000000000
  last := 8210266876799999999999

def overnight : List Property :=
  [⟨"UID", none, some "night"⟩, ⟨"DTSTART", none, some "20260907T220000Z"⟩,
    ⟨"DTEND", none, some "20260908T020000Z"⟩, ⟨"RRULE", none, some "FREQ=DAILY"⟩]

def overnightRaw : RawEvent where
  uid := "night"
  dtstart := "20260907T220000Z"
  dtend := some "20260908T020000Z"
  rrule := some "FREQ=DAILY"

theorem readRaw_overnight : readRaw overnight = some overnightRaw := by rfl

theorem eventStart_overnight : utcOnly.eventStart overnightRaw () = some (evening, ⟨evening, none⟩) := by rfl

theorem ruleOf_overnight : utcOnly.ruleOf overnightRaw ⟨evening, none⟩ = some () := by decide +kernel


theorem overnight_read {raw : RawEvent} {start : ℤ} {anchor : RecurrenceAnchor Unit ℤ}
    (hraw : readRaw overnight = some raw) (hstart : utcOnly.eventStart raw () = some (start, anchor)) :
    raw = overnightRaw ∧ start = evening ∧ anchor = ⟨evening, none⟩ := by
  rw [readRaw_overnight, Option.some_inj] at hraw
  subst hraw
  rw [eventStart_overnight, Option.some_inj, Prod.mk.injEq] at hstart
  exact ⟨rfl, hstart.1.symm, hstart.2.symm⟩

theorem daily_rules : Rules utcOnly daily where
  sorted _ closes := by
    refine List.pairwise_map.mpr (List.pairwise_lt_range.imp fun {j k} hlt => ?_)
    unfold oneDay
    omega
  all _ _ _ _ := rfl

theorem overnight_reads : ∀ event ∈ [overnight], utcOnly.SameReadings event () := by
  rw [List.forall_mem_singleton]
  intro raw start anchor hraw hstart
  obtain ⟨rfl, -, -⟩ := overnight_read hraw hstart
  exact ⟨by decide +kernel, by decide +kernel⟩

theorem overnight_few {opens closes : ℤ}
    (h : ((daily () closes).filter fun s => opens ≤ s ∧ s < closes).length ≤ maxOccurrencesPerEvent) :
    utcOnly.Few daily [overnight] opens closes () := by
  unfold Libraries.Few
  rw [List.forall_mem_singleton]
  intro raw start anchor set _ _ _
  exact h

/-- What happens of the event in a window. -/
theorem overnight_expected {opens closes : ℤ} :
    utcOnly.expected daily [overnight] ⟨"", "", ""⟩ opens closes () =
      (utcOnly.happening daily overnight overnightRaw evening ⟨evening, none⟩ opens closes () []).map fun s =>
        (s, utcOnly.entry overnightRaw ⟨"", "", ""⟩ () s (s + utcOnly.ownLength overnight overnightRaw evening ())) := by
  have hslots : utcOnly.replacedSlots [overnight] () = [] := by rfl
  rw [Libraries.expected, hslots, List.flatMap_singleton, Libraries.expectedOf, readRaw_overnight]
  dsimp only
  rw [eventStart_overnight]


theorem overnight_shown :
    utcOnly.Shows daily [overnight] ⟨"", "", ""⟩ (evening - hour) (evening + 25 * hour) () := by
  have hslots : utcOnly.replacedSlots [overnight] () = [] := by rfl
  have hstarts : utcOnly.occurrenceStarts overnightRaw evening ⟨evening, none⟩ (evening - hour) (evening + 25 * hour) =
      [evening, evening + oneDay] := by decide +kernel
  have hhappen : utcOnly.happening daily overnight overnightRaw evening ⟨evening, none⟩ (evening - hour)
      (evening + 25 * hour) () [] = [evening, evening + oneDay] := by decide +kernel
  have hstart : ∀ a ∈ utcOnly.expected daily [overnight] ⟨"", "", ""⟩ (evening - hour) (evening + 25 * hour) (),
      a.1 = evening ∨ a.1 = evening + oneDay := by
    rw [overnight_expected, hhappen]
    intro a ha
    obtain ⟨s, hs, rfl⟩ := List.mem_map.mp ha
    simpa using hs
  have hapart : utcOnly.PrintsApart daily [overnight] ⟨"", "", ""⟩ (evening - hour) (evening + 25 * hour) () := by
    intro a ha b hb
    obtain ha | ha := hstart a ha <;> obtain hb | hb := hstart b hb <;> rw [ha, hb] <;> decide +kernel
  refine (shows_iff daily_rules (overnight_few (by decide +kernel)) overnight_reads hapart).mpr ⟨?_, ?_, ?_⟩
  · rw [hslots, List.forall_mem_singleton]
    intro raw start anchor hraw hstart'
    obtain ⟨rfl, rfl, rfl⟩ := overnight_read hraw hstart'
    refine ⟨fun duration _ hduration => (by cases hduration), fun s hs _ => ?_⟩
    rw [hstarts] at hs
    obtain rfl | rfl : s = evening ∨ s = evening + oneDay := by simpa using hs
    · decide +kernel
    · decide +kernel
  · rw [hslots, List.forall_mem_singleton]
    intro raw start anchor hraw hstart' s hs
    obtain ⟨rfl, rfl, rfl⟩ := overnight_read hraw hstart'
    rw [hhappen] at hs
    obtain rfl | rfl : s = evening ∨ s = evening + oneDay := by simpa using hs
    · decide +kernel
    · decide +kernel
  · intro a ha b hb
    obtain ha | ha := hstart a ha <;> obtain hb | hb := hstart b hb <;> rw [ha, hb] <;> decide +kernel

/-- The night that has begun when the window opens is not shown. -/
theorem overnight_lost :
    Rules utcOnly daily ∧ utcOnly.Few daily [overnight] (evening + 2 * hour) (evening + 14 * hour) () ∧
      utcOnly.SameReadings overnight () ∧
      ¬ utcOnly.Shows daily [overnight] ⟨"", "", ""⟩ (evening + 2 * hour) (evening + 14 * hour) () := by
  refine ⟨daily_rules, overnight_few (by decide +kernel), overnight_reads overnight (List.mem_singleton_self _), ?_⟩
  rintro ⟨out, hout, order, hperm, -, rfl⟩
  have hexpand : utcOnly.expandEvent overnight ⟨"", "", ""⟩ (evening + 2 * hour) (evening + 14 * hour) ()
      (utcOnly.replacedSlots [overnight] ()) = some [] := by rfl
  have hhappen : utcOnly.happening daily overnight overnightRaw evening ⟨evening, none⟩ (evening + 2 * hour)
      (evening + 14 * hour) () [] = [evening] := by decide +kernel
  have hnone : order.map Prod.snd = [] := by
    simpa [Libraries.parseEvents, hexpand] using hout.symm
  have hone := hperm.length_eq
  rw [overnight_expected, hhappen, List.map_eq_nil_iff.mp hnone] at hone
  cases hone

end Haruspex.Calendar
