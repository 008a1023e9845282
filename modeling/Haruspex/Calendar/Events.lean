import Haruspex.Calendar.Duration

/-! The occurrences of calendar events in a window (`integrations/dav/ical.rs`), over what the host takes
from its libraries. An instant is its nanoseconds since the epoch; an operation that panics in Rust is `none`. -/
namespace Haruspex.Calendar
open Rust (trim)
set_option autoImplicit false

/-! ## What is read of an event -/

/-- `Property` of the `ical` crate. -/
structure Property where
  name : String
  params : Option (List (String × List String)) := none
  value : Option String := none

structure RawEvent where
  uid : String := ""
  summary : String := ""
  description : Option String := none
  location : Option String := none
  organizer : Option String := none
  attendees : List String := []
  status : Option String := none
  dtstart : String := ""
  dtstart_tzid : Option String := none
  dtstart_is_date : Bool := false
  dtend : Option String := none
  dtend_is_date : Bool := false
  duration : Option String := none
  rrule : Option String := none
  exdates : List String := []
  recurrence_id : Option String := none
  recurrence_id_tzid : Option String := none
  recurrence_id_is_date : Bool := false

/-- `eq_ignore_ascii_case` -/
def sameWord (a b : String) : Bool := a.toList.map Char.toLower = b.toList.map Char.toLower

/-- The first value of the first parameter of a name. -/
def Property.param (prop : Property) (name : String) : Option String :=
  prop.params.bind fun ps => (ps.find? fun p => sameWord p.1 name).bind fun p => p.2.head?

def Property.isDate (prop : Property) : Bool :=
  (prop.param "VALUE").any fun v => sameWord v "DATE"

def nonEmpty (s : String) : Option String := if trim s.toList = [] then none else some s

def stripMailto (value : String) : String :=
  ((Rust.stripPrefix value "mailto:").orElse fun _ => Rust.stripPrefix value "MAILTO:").getD value

/-- What one property sets. -/
def RawEvent.read (raw : RawEvent) (prop : Property) : RawEvent :=
  let value := prop.value.getD ""
  match String.ofList (prop.name.toList.map Char.toUpper) with
  | "UID" => { raw with uid := value }
  | "SUMMARY" => { raw with summary := value }
  | "DESCRIPTION" => { raw with description := nonEmpty value }
  | "LOCATION" => { raw with location := nonEmpty value }
  | "ORGANIZER" => { raw with organizer := nonEmpty (stripMailto value) }
  | "ATTENDEE" => { raw with attendees := raw.attendees ++ (nonEmpty (stripMailto value)).toList }
  | "STATUS" => { raw with status := nonEmpty value }
  | "DTSTART" =>
    { raw with dtstart_is_date := prop.isDate, dtstart_tzid := prop.param "TZID", dtstart := value }
  | "DTEND" => { raw with dtend_is_date := prop.isDate, dtend := nonEmpty value }
  | "DURATION" => { raw with duration := nonEmpty value }
  | "RRULE" => { raw with rrule := nonEmpty value }
  | "EXDATE" => { raw with exdates := raw.exdates ++ [value] }
  | "RECURRENCE-ID" =>
    { raw with
      recurrence_id_is_date := prop.isDate
      recurrence_id_tzid := prop.param "TZID"
      recurrence_id := nonEmpty value }
  | _ => raw

/-- An event without a start is none. -/
def readRaw (event : List Property) : Option RawEvent :=
  let raw := event.foldl RawEvent.read {}
  if raw.dtstart = "" then none else some raw

/-! ## What the libraries do -/

/-- What `chrono`, `chrono_tz` and `rrule` do: dates and times of the clock are values of their own, rules
are what `rrule` reads. -/
structure Libraries (Zone Day Naive Rule : Type) where
  /-- `NaiveDateTime::parse_from_str` with `%Y%m%dT%H%M%S`. -/
  parseNaive : List Char → Option Naive
  /-- `NaiveDate::parse_from_str` with `%Y%m%d`. -/
  parseDay : List Char → Option Day
  /-- `and_hms_opt(0, 0, 0)` -/
  midnight : Day → Option Naive
  /-- `Utc.from_utc_datetime` -/
  fromUtc : Naive → ℤ
  /-- `str::parse::<Tz>` -/
  parseZone : String → Option Zone
  /-- `from_local_datetime(..).earliest()`, as an instant. -/
  earliest : Zone → Naive → Option ℤ
  /-- `format("%Y%m%dT%H%M%S")` -/
  stamp : Naive → String
  /-- The name of a zone. -/
  zoneName : Zone → String
  /-- `str::parse::<RRuleSet>` -/
  parseRule : String → Option Rule
  /-- `set.after(..).before(..).all(..).dates` -/
  all : Rule → ℤ → ℤ → ℕ → List ℤ
  /-- `with_timezone(..).to_rfc3339()` -/
  rfc3339 : Zone → ℤ → String
  /-- `DateTime::<Utc>::MIN_UTC` -/
  first : ℤ
  /-- `DateTime::<Utc>::MAX_UTC` -/
  last : ℤ

section
variable {Zone Day Naive Rule : Type} (lib : Libraries Zone Day Naive Rule)

/-- An instant and a duration after it; out of range, the sum panics. -/
def Libraries.plus (s length : ℤ) : Option ℤ :=
  if lib.first ≤ s + length ∧ s + length ≤ lib.last then some (s + length) else none

/-- `strip_suffix('Z')` -/
def stripZ (value : List Char) : Option (List Char) :=
  if value.getLast? = some 'Z' then some value.dropLast else none

/-- The zone of a `TZID`, or the user's. -/
def Libraries.zoneOf (tzid : Option String) (here : Zone) : Zone := (tzid.bind lib.parseZone).getD here

def Libraries.parseDatetime (value : List Char) (tzid : Option String) (here : Zone) : Option ℤ :=
  match stripZ (trim value) with
  | some stripped => (lib.parseNaive stripped).map lib.fromUtc
  | none => do
    let naive ← lib.parseNaive (trim value)
    lib.earliest (lib.zoneOf tzid here) naive

def Libraries.parseDate (value : List Char) : Option Day := lib.parseDay (trim value)

def Libraries.allDayStart (date : Day) (here : Zone) : Option ℤ := do
  let naive ← lib.midnight date
  lib.earliest here naive

/-- A value that is a date or a date and a time. -/
def Libraries.instantOf (isDate : Bool) (value : List Char) (tzid : Option String) (here : Zone) : Option ℤ :=
  if isDate then (lib.parseDate value).bind fun d => lib.allDayStart d here
  else lib.parseDatetime value tzid here

/-! ## One event -/

structure EventSource where
  account_id : String
  account_label : String
  calendar_name : String

structure CalendarEvent where
  account_id : String
  account_label : String
  calendar_name : String
  uid : String
  summary : String
  description : Option String
  location : Option String
  start : String
  «end» : String
  time_zone : Option String
  all_day : Bool
  organizer : Option String
  attendees : List String
  status : Option String
  recurring : Bool

/-- Where a rule is anchored; an event that is written in UTC has no zone. -/
structure RecurrenceAnchor (Zone Naive : Type) where
  naive : Naive
  zone : Option Zone

/-- The series slot an override replaces. -/
def Libraries.recurrenceSlot (raw : RawEvent) (here : Zone) : Option ℤ :=
  raw.recurrence_id.bind fun value =>
    lib.instantOf raw.recurrence_id_is_date value.toList raw.recurrence_id_tzid here

def Libraries.eventStart (raw : RawEvent) (here : Zone) : Option (ℤ × RecurrenceAnchor Zone Naive) :=
  if raw.dtstart_is_date then do
    let date ← lib.parseDate raw.dtstart.toList
    let start ← lib.allDayStart date here
    let naive ← lib.midnight date
    some (start, ⟨naive, some here⟩)
  else
    match stripZ (trim raw.dtstart.toList) with
    | some stripped => (lib.parseNaive stripped).map fun naive => (lib.fromUtc naive, ⟨naive, none⟩)
    | none => do
      let naive ← lib.parseNaive (trim raw.dtstart.toList)
      let zone := lib.zoneOf raw.dtstart_tzid here
      let start ← lib.earliest zone naive
      some (start, ⟨naive, some zone⟩)

/-- A day, in nanoseconds. -/
def oneDay : ℤ := 86400000000000

/-- What an event lasts when it has no end and no duration. -/
def defaultLength (raw : RawEvent) : ℤ := if raw.dtstart_is_date then oneDay else 0

/-- How long an event lasts; a duration that overflows panics. -/
def Libraries.eventLength (raw : RawEvent) (start : ℤ) (here : Zone) : Option ℤ :=
  match (raw.dtend.bind fun dtend =>
      lib.instantOf raw.dtend_is_date dtend.toList raw.dtstart_tzid here).filter (start < ·) with
  | some stop => some (stop - start)
  | none =>
    match raw.duration with
    | none => some (defaultLength raw)
    | some duration => do
      match (← parseDuration duration.toList).filter (0 < ·) with
      | some length => some length
      | none => some (defaultLength raw)

def Libraries.exdates (raw : RawEvent) (here : Zone) : List ℤ :=
  (raw.exdates.flatMap fun line => line.toList.splitOn ',').filterMap fun value =>
    lib.instantOf raw.dtstart_is_date value raw.dtstart_tzid here

/-- `MAX_OCCURRENCES_PER_EVENT` -/
def maxOccurrencesPerEvent : ℕ := 1000

/-- The text that a rule is read from. -/
def Libraries.ruleText (anchor : RecurrenceAnchor Zone Naive) (rule : String) : String :=
  (match anchor.zone with
    | some zone => "DTSTART;TZID=" ++ lib.zoneName zone ++ ":" ++ lib.stamp anchor.naive
    | none => "DTSTART:" ++ lib.stamp anchor.naive ++ "Z") ++ "\nRRULE:" ++ rule

/-- The rule of an event, where it has one that can be read. -/
def Libraries.ruleOf (raw : RawEvent) (anchor : RecurrenceAnchor Zone Naive) : Option Rule :=
  raw.rrule.bind fun rule => lib.parseRule (lib.ruleText anchor rule)

def Libraries.occurrenceStarts (raw : RawEvent) (start : ℤ) (anchor : RecurrenceAnchor Zone Naive)
    (opens closes : ℤ) : List ℤ :=
  match lib.ruleOf raw anchor with
  | none => [start]
  | some set => lib.all set opens closes maxOccurrencesPerEvent

/-- The entry of an occurrence. -/
def Libraries.entry (raw : RawEvent) (source : EventSource) (here : Zone) (occurrence stop : ℤ) :
    CalendarEvent where
  account_id := source.account_id
  account_label := source.account_label
  calendar_name := source.calendar_name
  uid := raw.uid
  summary := raw.summary
  description := raw.description
  location := raw.location
  start := lib.rfc3339 here occurrence
  «end» := lib.rfc3339 here stop
  time_zone := raw.dtstart_tzid
  all_day := raw.dtstart_is_date
  organizer := raw.organizer
  attendees := raw.attendees
  status := raw.status
  recurring := raw.rrule.isSome || raw.recurrence_id.isSome

/-- The slots that overrides replace, each with the series it is of. -/
def Libraries.replacedSlots (events : List (List Property)) (here : Zone) : List (String × ℤ) :=
  (events.filterMap readRaw).filterMap fun raw => (lib.recurrenceSlot raw here).map fun slot => (raw.uid, slot)

/-- What is taken out of the occurrences of an event: what it excludes itself, and, for a series, the slots
that are replaced. -/
def Libraries.excluded (raw : RawEvent) (here : Zone) (replaced : List (String × ℤ)) : List ℤ :=
  lib.exdates raw here ++
    if raw.recurrence_id.isSome then []
    else (replaced.filter fun r => r.1 = raw.uid).map Prod.snd

/-- The occurrences that meet the window, one start after another. -/
def Libraries.shown (length opens closes : ℤ) (make : ℤ → ℤ → CalendarEvent) (excluded : List ℤ) :
    List ℤ → Option (List CalendarEvent)
  | [] => some []
  | s :: starts =>
    if s ∈ excluded then Libraries.shown length opens closes make excluded starts
    else do
      let stop ← lib.plus s length
      let others ← Libraries.shown length opens closes make excluded starts
      some (if opens < stop ∧ s < closes then make s stop :: others else others)

def Libraries.expandEvent (event : List Property) (source : EventSource) (opens closes : ℤ) (here : Zone)
    (replaced : List (String × ℤ)) : Option (List CalendarEvent) :=
  match readRaw event with
  | none => some []
  | some raw =>
    match lib.eventStart raw here with
    | none => some []
    | some (start, anchor) => do
      let length ← lib.eventLength raw start here
      lib.shown length opens closes (lib.entry raw source here) (lib.excluded raw here replaced)
        (lib.occurrenceStarts raw start anchor opens closes)

/-- All events of all calendars, in the order of their printed starts. -/
def Libraries.parseEvents (events : List (List Property)) (source : EventSource) (opens closes : ℤ)
    (here : Zone) : Option (List CalendarEvent) := do
  let out ← events.mapM fun event =>
    lib.expandEvent event source opens closes here (lib.replacedSlots events here)
  some (out.flatten.mergeSort fun a b => decide (a.start ≤ b.start))

end

end Haruspex.Calendar
