import Haruspex.Calendar.Events

/-! Where the lengths of events overflow. -/
namespace Haruspex.Calendar
set_option autoImplicit false

variable {Zone Day Naive Rule : Type} (lib : Libraries Zone Day Naive Rule)

/-- The end that an event gives, where it is after its start. -/
def Libraries.laterEnd (raw : RawEvent) (start : ℤ) (here : Zone) : Option ℤ :=
  (raw.dtend.bind fun dtend =>
    lib.instantOf raw.dtend_is_date dtend.toList raw.dtstart_tzid here).filter (start < ·)

/-- How long an event lasts, in numbers of any size. -/
def Libraries.statedLength (raw : RawEvent) (start : ℤ) (here : Zone) : ℤ :=
  match lib.laterEnd raw start here with
  | some stop => stop - start
  | none =>
    ((raw.duration.bind fun duration => stated duration.toList).filter (0 < ·)).getD (defaultLength raw)

/-- The duration of an event is in range, where it has no end that counts. -/
def Libraries.DurationFits (raw : RawEvent) (start : ℤ) (here : Zone) : Prop :=
  ∀ duration, lib.laterEnd raw start here = none → raw.duration = some duration → InRange duration.toList

/-- An event whose duration is in range, and so is the end of each occurrence that is not excluded. -/
def Libraries.EndsInRange (event : List Property) (opens closes : ℤ) (here : Zone)
    (replaced : List (String × ℤ)) : Prop :=
  ∀ raw start anchor, readRaw event = some raw → lib.eventStart raw here = some (start, anchor) →
    lib.DurationFits raw start here ∧
      ∀ s ∈ lib.occurrenceStarts raw start anchor opens closes, s ∉ lib.excluded raw here replaced →
        lib.first ≤ s + lib.statedLength raw start here ∧ s + lib.statedLength raw start here ≤ lib.last

variable {lib} {raw : RawEvent} {start : ℤ} {here : Zone}

theorem eventLength_eq (h : lib.DurationFits raw start here) :
    lib.eventLength raw start here = some (lib.statedLength raw start here) := by
  unfold Libraries.eventLength Libraries.statedLength
  unfold Libraries.DurationFits at h
  unfold Libraries.laterEnd at h ⊢
  cases hend : (raw.dtend.bind fun dtend =>
      lib.instantOf raw.dtend_is_date dtend.toList raw.dtstart_tzid here).filter (start < ·) with
  | some stop => rfl
  | none =>
    cases hduration : raw.duration with
    | none => rfl
    | some duration =>
      dsimp only [Option.bind_some]
      rw [parseDuration_of_inRange (h duration hend hduration)]
      cases hpositive : (stated duration.toList).filter (0 < ·) with
      | none => simp [hpositive]
      | some length => simp [hpositive]

theorem durationFits_of_eventLength {length : ℤ} (h : lib.eventLength raw start here = some length) :
    lib.DurationFits raw start here := by
  intro duration hend hduration
  unfold Libraries.eventLength at h
  unfold Libraries.laterEnd at hend
  rw [hend, hduration] at h
  dsimp only at h
  cases hparse : parseDuration duration.toList with
  | none => simp [hparse] at h
  | some d => exact inRange_of_parseDuration hparse

theorem plus_eq_some {s length stop : ℤ} :
    lib.plus s length = some stop ↔ (lib.first ≤ s + length ∧ s + length ≤ lib.last) ∧ stop = s + length := by
  unfold Libraries.plus
  split
  · rename_i h
    simp [h, eq_comm]
  · rename_i h
    simp [h]

/-- The occurrences are gone through to the end when the end of each is in range. -/
theorem shown_isSome {length opens closes : ℤ} {make : ℤ → ℤ → CalendarEvent} {excluded : List ℤ}
    (starts : List ℤ) :
    (∃ events, lib.shown length opens closes make excluded starts = some events) ↔
      ∀ s ∈ starts, s ∉ excluded → lib.first ≤ s + length ∧ s + length ≤ lib.last := by
  induction starts with
  | nil => simp [Libraries.shown]
  | cons s starts ih =>
    unfold Libraries.shown
    by_cases hexcluded : s ∈ excluded
    · simp [hexcluded, ih]
    · rw [if_neg hexcluded, List.forall_mem_cons, ← ih]
      constructor
      · rintro ⟨events, h⟩
        obtain ⟨stop, hstop, h⟩ := Option.bind_eq_some_iff.mp h
        obtain ⟨others, hothers, -⟩ := Option.bind_eq_some_iff.mp h
        exact ⟨fun _ => (plus_eq_some.mp hstop).1, others, hothers⟩
      · rintro ⟨hrange, others, hothers⟩
        rw [plus_eq_some.mpr ⟨hrange hexcluded, rfl⟩, hothers]
        exact ⟨_, rfl⟩

variable {event : List Property} {source : EventSource} {opens closes : ℤ} {replaced : List (String × ℤ)}

/-- An event that has no start that can be read. -/
theorem expandEvent_skips (h : ((readRaw event).bind fun raw => lib.eventStart raw here) = none) :
    lib.expandEvent event source opens closes here replaced = some [] := by
  unfold Libraries.expandEvent
  cases hraw : readRaw event with
  | none => rfl
  | some raw =>
    rw [hraw, Option.bind_some] at h
    dsimp only
    rw [h]

theorem expandEvent_eq {anchor : RecurrenceAnchor Zone Naive} (hraw : readRaw event = some raw)
    (hstart : lib.eventStart raw here = some (start, anchor)) :
    lib.expandEvent event source opens closes here replaced =
      (lib.eventLength raw start here).bind fun length =>
        lib.shown length opens closes (lib.entry raw source here) (lib.excluded raw here replaced)
          (lib.occurrenceStarts raw start anchor opens closes) := by
  unfold Libraries.expandEvent
  rw [hraw]
  dsimp only
  rw [hstart]
  rfl

theorem expandEvent_isSome :
    (∃ events, lib.expandEvent event source opens closes here replaced = some events) ↔
      lib.EndsInRange event opens closes here replaced := by
  cases hread : (readRaw event).bind fun raw => lib.eventStart raw here with
  | none =>
    refine ⟨fun _ raw start anchor hraw hstart => ?_, fun _ => ⟨[], expandEvent_skips hread⟩⟩
    rw [hraw, Option.bind_some, hstart] at hread
    cases hread
  | some pair =>
    obtain ⟨start, anchor⟩ := pair
    obtain ⟨raw, hraw, hstart⟩ := Option.bind_eq_some_iff.mp hread
    rw [expandEvent_eq hraw hstart]
    constructor
    · rintro ⟨events, h⟩ raw' start' anchor' hraw' hstart'
      obtain rfl := Option.some.inj (hraw.symm.trans hraw')
      obtain ⟨rfl, rfl⟩ := Prod.mk.inj (Option.some.inj (hstart.symm.trans hstart'))
      obtain ⟨length, hlength, h⟩ := Option.bind_eq_some_iff.mp h
      have hfits := durationFits_of_eventLength hlength
      rw [eventLength_eq hfits] at hlength
      obtain rfl := Option.some.inj hlength
      exact ⟨hfits, (shown_isSome _).mp ⟨events, h⟩⟩
    · intro h
      obtain ⟨hfits, hstarts⟩ := h raw start anchor hraw hstart
      rw [eventLength_eq hfits, Option.bind_some]
      exact (shown_isSome _).mpr hstarts

/-- A duration is read exactly when it is in range and its parts are separated; an event is expanded when
its duration is in range and so are the ends of its occurrences. -/
theorem lengths_fit (lib : Libraries Zone Day Naive Rule) (source : EventSource) (opens closes : ℤ)
    (here : Zone) (replaced : List (String × ℤ)) :
    (∀ value, Exact value ↔ InRange value ∧ Separated value) ∧
      ∀ event, (∃ events, lib.expandEvent event source opens closes here replaced = some events) ↔
        lib.EndsInRange event opens closes here replaced :=
  ⟨exact_iff, fun _ => expandEvent_isSome⟩

theorem weeks_overflow : ¬ ∀ value, Exact value := by
  intro h
  obtain ⟨duration, hparse, -⟩ := h "P99999999999999W".toList
  have hnone : parseDuration "P99999999999999W".toList = none := by decide +kernel
  rw [hnone] at hparse
  cases hparse

end Haruspex.Calendar

/-! What happens in a window, and when the entries of a window are just that. -/
namespace Haruspex.Calendar
set_option autoImplicit false

/-! ## What happens -/

/-- The property is one of a name. -/
def Property.named (prop : Property) (name : String) : Bool := String.ofList (prop.name.toList.map Char.toUpper) = name

/-- An occurrence and a window have a moment in common; one of no length is in the window where it starts. -/
def Meets (opens closes s length : ℤ) : Prop := s < closes ∧ (opens < s + length ∨ length = 0 ∧ opens ≤ s)

instance (opens closes s length : ℤ) : Decidable (Meets opens closes s length) :=
  inferInstanceAs (Decidable (_ ∧ _))

theorem meets_iff {opens closes s length : ℤ} (hwindow : opens < closes) (hlength : 0 ≤ length) :
    Meets opens closes s length ↔
      (∃ moment, (s ≤ moment ∧ moment < s + length) ∧ opens ≤ moment ∧ moment < closes) ∨
        length = 0 ∧ opens ≤ s ∧ s < closes := by
  unfold Meets
  constructor
  · rintro ⟨hstart, hstop | ⟨hzero, hopens⟩⟩
    · by_cases hzero : length = 0
      · exact .inr ⟨hzero, by omega, hstart⟩
      · rcases Int.le_total opens s with hle | hle
        · exact .inl ⟨s, ⟨Int.le_refl s, by omega⟩, hle, hstart⟩
        · exact .inl ⟨opens, ⟨hle, hstop⟩, Int.le_refl opens, hwindow⟩
    · exact .inr ⟨hzero, hopens, hstart⟩
  · rintro (⟨moment, ⟨hs, hstop⟩, hopens, hcloses⟩ | ⟨hzero, hopens, hcloses⟩)
    · exact ⟨by omega, .inl (by omega)⟩
    · exact ⟨hcloses, .inr ⟨hzero, hopens⟩⟩

section
variable {Zone Day Naive Rule : Type} (lib : Libraries Zone Day Naive Rule)

/-- The end of an event, as its own property says it. -/
def Libraries.ownEnd (event : List Property) (here : Zone) : Option ℤ :=
  ((event.filter fun prop => prop.named "DTEND").getLast?).bind fun prop =>
    (nonEmpty (prop.value.getD "")).bind fun value =>
      lib.instantOf prop.isDate value.toList (prop.param "TZID") here

/-- What an event excludes, as its own properties say it. -/
def Libraries.ownExdates (event : List Property) (here : Zone) : List ℤ :=
  (event.filter fun prop => prop.named "EXDATE").flatMap fun prop =>
    ((prop.value.getD "").toList.splitOn ',').filterMap fun value =>
      lib.instantOf prop.isDate value (prop.param "TZID") here

def Libraries.ownLength (event : List Property) (raw : RawEvent) (start : ℤ) (here : Zone) : ℤ :=
  match (lib.ownEnd event here).filter (start < ·) with
  | some stop => stop - start
  | none => ((raw.duration.bind fun duration => stated duration.toList).filter (0 < ·)).getD (defaultLength raw)

/-- The slots that overrides take from a series; an override keeps its own time. -/
def overridden (raw : RawEvent) (replaced : List (String × ℤ)) : List ℤ :=
  if raw.recurrence_id.isSome then [] else (replaced.filter fun r => r.1 = raw.uid).map Prod.snd

/-- All occurrences of each rule up to an instant. -/
abbrev Occurs (Rule : Type) := Rule → ℤ → List ℤ

variable (occurs : Occurs Rule)

/-- The starts of an event. -/
def Libraries.starts (raw : RawEvent) (start : ℤ) (anchor : RecurrenceAnchor Zone Naive) (closes : ℤ) : List ℤ :=
  match lib.ruleOf raw anchor with
  | some set => occurs set closes
  | none => [start]

/-- The starts of an event that happen in a window. -/
def Libraries.happening (event : List Property) (raw : RawEvent) (start : ℤ) (anchor : RecurrenceAnchor Zone Naive)
    (opens closes : ℤ) (here : Zone) (replaced : List (String × ℤ)) : List ℤ :=
  (lib.starts occurs raw start anchor closes).filter fun s =>
    s ∉ lib.ownExdates event here ++ overridden raw replaced ∧ Meets opens closes s (lib.ownLength event raw start here)

/-- What happens of an event in a window, each start with its entry. -/
def Libraries.expectedOf (event : List Property) (source : EventSource) (opens closes : ℤ) (here : Zone)
    (replaced : List (String × ℤ)) : List (ℤ × CalendarEvent) :=
  match readRaw event with
  | none => []
  | some raw =>
    match lib.eventStart raw here with
    | none => []
    | some (start, anchor) =>
      (lib.happening occurs event raw start anchor opens closes here replaced).map fun s =>
        (s, lib.entry raw source here s (s + lib.ownLength event raw start here))

def Libraries.expected (events : List (List Property)) (source : EventSource) (opens closes : ℤ) (here : Zone) :
    List (ℤ × CalendarEvent) :=
  events.flatMap fun event => lib.expectedOf occurs event source opens closes here (lib.replacedSlots events here)

/-- The entries are those of what happens, once each, in the order of the instants they start at. -/
def Libraries.Shows (events : List (List Property)) (source : EventSource) (opens closes : ℤ) (here : Zone) : Prop :=
  ∃ out, lib.parseEvents events source opens closes here = some out ∧
    ∃ order : List (ℤ × CalendarEvent), order.Perm (lib.expected occurs events source opens closes here) ∧
      order.Pairwise (fun a b => a.1 ≤ b.1) ∧ out = order.map Prod.snd

/-! ## What is relied on, and when -/

/-- What `rrule` does: a rule's occurrences come in order, cut to the window with both its ends and to the limit. -/
structure Rules : Prop where
  sorted : ∀ set closes, (occurs set closes).Pairwise (· ≤ ·)
  all : ∀ set opens closes limit,
    lib.all set opens closes limit = ((occurs set closes).filter fun s => opens ≤ s).take limit

/-- A printed start is of one instant. -/
def Libraries.PrintsApart (events : List (List Property)) (source : EventSource) (opens closes : ℤ) (here : Zone) :
    Prop :=
  ∀ a ∈ lib.expected occurs events source opens closes here, ∀ b ∈ lib.expected occurs events source opens closes here,
    lib.rfc3339 here a.1 = lib.rfc3339 here b.1 → a.1 = b.1

/-- No rule has more occurrences in the window than the limit. -/
def Libraries.Few (events : List (List Property)) (opens closes : ℤ) (here : Zone) : Prop :=
  ∀ event ∈ events, ∀ raw start anchor set, readRaw event = some raw → lib.eventStart raw here = some (start, anchor) →
    lib.ruleOf raw anchor = some set →
      ((occurs set closes).filter fun s => opens ≤ s ∧ s < closes).length ≤ maxOccurrencesPerEvent

/-- The end and the exclusions of an event mean the same when they are read by the zone and the kind of its start. -/
def Libraries.SameReadings (event : List Property) (here : Zone) : Prop :=
  ∀ raw start anchor, readRaw event = some raw → lib.eventStart raw here = some (start, anchor) →
    lib.ownEnd event here = (raw.dtend.bind fun dtend =>
      lib.instantOf raw.dtend_is_date dtend.toList raw.dtstart_tzid here) ∧
    lib.ownExdates event here = lib.exdates raw here

/-- Of a rule, nothing that happens in the window started before it; and nothing of no length starts with it. -/
def Libraries.NoneBefore (event : List Property) (opens closes : ℤ) (here : Zone) (replaced : List (String × ℤ)) :
    Prop :=
  ∀ raw start anchor, readRaw event = some raw → lib.eventStart raw here = some (start, anchor) →
    ∀ s ∈ lib.happening occurs event raw start anchor opens closes here replaced,
      ((lib.ruleOf raw anchor).isSome → opens ≤ s) ∧ (lib.ownLength event raw start here = 0 → opens < s)

/-- What happens later is printed later. -/
def Libraries.PrintsInOrder (events : List (List Property)) (source : EventSource) (opens closes : ℤ) (here : Zone) :
    Prop :=
  ∀ a ∈ lib.expected occurs events source opens closes here, ∀ b ∈ lib.expected occurs events source opens closes here,
    a.1 < b.1 → lib.rfc3339 here a.1 ≤ lib.rfc3339 here b.1

end

end Haruspex.Calendar
