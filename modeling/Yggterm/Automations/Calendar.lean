import Yggterm.Library.Neighbours
import Yggterm.Library.Scans

/-!
# Occurrences of a calendar

`automation.rs` searches the days around an instant for the occurrences of a calendar.  A date of
the `time` crate is the number of its day, counted from 1970-01-01; which dates there are, and how
long an offset may be, is a parameter.
-/

namespace Yggterm.Automations

open Neighbours Scans

structure CalendarExpr where
  weekdays : List Nat
  hour : Nat
  minute : Nat
  second : Nat
  deriving DecidableEq

/-- The dates and offsets of the `time` crate, with what the searches rely on. -/
structure DateRange where
  firstDay : Int
  lastDay : Int
  longestOffset : Nat
  early : firstDay ≤ -10
  late : 4 ≤ lastDay
  countable : lastDay < 4 * 10 ^ 8
  short : longestOffset < 26 * 3600

/-- The years −9999 to 9999, and offsets up to 25:59:59. -/
def DateRange.standard : DateRange :=
  ⟨-4371587, 2932896, 93599, by decide, by decide, by decide, by decide⟩

def DateRange.Holds (range : DateRange) (date : Int) : Prop :=
  range.firstDay ≤ date ∧ date ≤ range.lastDay

instance (range : DateRange) : DecidablePred range.Holds :=
  fun date => inferInstanceAs (Decidable (range.firstDay ≤ date ∧ date ≤ range.lastDay))

def secondsPerDay : Int := 86400

/-- Monday is 0, and the first day of 1970 was a Thursday. -/
def weekdayNumber (date : Int) : Nat := ((date + 3) % 7).toNat

/-- `UtcOffset::from_whole_seconds`. -/
def DateRange.utcOffset (range : DateRange) (seconds : Int) : Option Int :=
  if seconds.natAbs ≤ range.longestOffset then some seconds else none

/-- The second that a clock in the offset shows. -/
def localSecond (offset : Int) (instantMs : Nat) : Int := (instantMs / 1000 : Nat) + offset

/-- The local date of an instant.  The outer value is `none` where `to_offset` panics, the inner
one where the functions return early. -/
def DateRange.localDate (range : DateRange) (instantMs : Nat) (utcOffsetSecs : Int) :
    Option (Option Int) :=
  match range.utcOffset utcOffsetSecs with
  | none => some none
  | some offset =>
      if range.Holds ((instantMs / 1000 : Nat) / secondsPerDay) then
        if range.Holds (localSecond offset instantMs / secondsPerDay) then
          some (some (localSecond offset instantMs / secondsPerDay))
        else none
      else some none

def CalendarExpr.matchesWeekday (calendar : CalendarExpr) (day : Nat) : Bool :=
  calendar.weekdays.isEmpty || calendar.weekdays.contains day

/-- `Time::from_hms`, as the second of the day. -/
def CalendarExpr.clock (calendar : CalendarExpr) : Option Nat :=
  if calendar.hour < 24 ∧ calendar.minute < 60 ∧ calendar.second < 60 then
    some (calendar.hour * 3600 + calendar.minute * 60 + calendar.second)
  else none

def CalendarExpr.instantOn (calendar : CalendarExpr) (range : DateRange) (date : Int)
    (utcOffsetSecs : Int) : Option Int :=
  (range.utcOffset utcOffsetSecs).bind fun offset =>
    calendar.clock.map fun (clock : Nat) => date * secondsPerDay + clock - offset

/-- The occurrence on a date, in milliseconds, where the search accepts it. -/
def CalendarExpr.occurrenceOn (calendar : CalendarExpr) (range : DateRange) (utcOffsetSecs : Int)
    (accepts : Int → Bool) (date : Int) : Option Int :=
  if calendar.matchesWeekday (weekdayNumber date) then
    ((calendar.instantOn range date utcOffsetSecs).map (· * 1000)).filter accepts
  else none

/-- `as i64` of a `u64`. -/
def asI64 (value : Nat) : Int := if value < 2 ^ 63 then value else value - 2 ^ 64

/-- `u64::try_from`. -/
def toU64 (value : Int) : Option Nat := if 0 ≤ value then some value.toNat else none

/-- `none` where the search panics. -/
def CalendarExpr.previousOccurrenceAtOrBefore (calendar : CalendarExpr) (range : DateRange)
    (nowMs : Nat) (utcOffsetSecs : Int) : Option (Option Nat) :=
  (range.localDate nowMs utcOffsetSecs).map fun now => now.bind fun date =>
    (scan range.Holds (-1)
      (calendar.occurrenceOn range utcOffsetSecs (fun instant => instant ≤ asI64 nowMs))
      8 date).bind toU64

def CalendarExpr.nextOccurrenceAfter (calendar : CalendarExpr) (range : DateRange)
    (afterMs : Nat) (utcOffsetSecs : Int) : Option (Option Nat) :=
  (range.localDate afterMs utcOffsetSecs).map fun after => after.bind fun date =>
    (scan range.Holds 1
      (calendar.occurrenceOn range utcOffsetSecs (fun instant => instant > asI64 afterMs))
      8 date).bind toU64

/-! ## Occurrences -/

/-- The local time of the instant, on a date that exists, matches the fields of the calendar. -/
structure CalendarExpr.Occurs (calendar : CalendarExpr) (range : DateRange) (offset : Int)
    (instant : Nat) : Prop where
  whole : instant % 1000 = 0
  date : range.Holds (localSecond offset instant / secondsPerDay)
  weekday : calendar.weekdays = [] ∨
    weekdayNumber (localSecond offset instant / secondsPerDay) ∈ calendar.weekdays
  hour : localSecond offset instant % secondsPerDay / 3600 = calendar.hour
  minute : localSecond offset instant % 3600 / 60 = calendar.minute
  second : localSecond offset instant % 60 = calendar.second

/-- The `time` crate has a date and a time for the instant, in UTC and in the offset. -/
structure DateRange.Reads (range : DateRange) (offset : Int) (instant : Nat) : Prop where
  accepted : offset.natAbs ≤ range.longestOffset
  utc : range.Holds ((instant / 1000 : Nat) / secondsPerDay)
  zoned : range.Holds (localSecond offset instant / secondsPerDay)

theorem DateRange.Reads.localDate {range : DateRange} {offset : Int} {instant : Nat}
    (reads : range.Reads offset instant) :
    range.localDate instant offset =
      some (some (localSecond offset instant / secondsPerDay)) := by
  have isOffset : range.utcOffset offset = some offset := if_pos reads.accepted
  rw [DateRange.localDate, isOffset]
  exact (if_pos reads.utc).trans (if_pos reads.zoned)

theorem DateRange.Reads.asI64_eq {range : DateRange} {offset : Int} {instant : Nat}
    (reads : range.Reads offset instant) : asI64 instant = instant := by
  obtain ⟨_, below⟩ := reads.utc
  have countable := range.countable
  rw [secondsPerDay] at below
  exact if_pos (by omega)

theorem matchesWeekday_iff {calendar : CalendarExpr} {day : Nat} :
    calendar.matchesWeekday day = true ↔ calendar.weekdays = [] ∨ day ∈ calendar.weekdays := by
  simp [CalendarExpr.matchesWeekday]

theorem clock_eq_some_iff {calendar : CalendarExpr} {clock : Nat} :
    calendar.clock = some clock ↔
      (calendar.hour < 24 ∧ calendar.minute < 60 ∧ calendar.second < 60) ∧
        calendar.hour * 3600 + calendar.minute * 60 + calendar.second = clock := by
  rw [CalendarExpr.clock]
  split
  · next inDay => simp [inDay]
  · next notInDay => simp [notInDay]

/-- The occurrence of a date is the instant at which the clock of its offset shows the time. -/
theorem occurs_iff {calendar : CalendarExpr} {range : DateRange} {offset : Int} {instant : Nat} :
    calendar.Occurs range offset instant ↔
      ∃ date clock, range.Holds date ∧ calendar.matchesWeekday (weekdayNumber date) = true ∧
        calendar.clock = some clock ∧
        (instant : Int) = (date * secondsPerDay + clock - offset) * 1000 := by
  constructor
  · intro occurs
    obtain ⟨whole, isDate, weekday, hour, minute, second⟩ := occurs
    refine ⟨_, calendar.hour * 3600 + calendar.minute * 60 + calendar.second, isDate,
      (matchesWeekday_iff).mpr weekday, (clock_eq_some_iff).mpr ⟨?_, rfl⟩, ?_⟩
    · rw [secondsPerDay] at hour
      omega
    · rw [secondsPerDay] at hour ⊢
      rw [localSecond] at *
      push_cast
      omega
  · rintro ⟨date, clock, isDate, weekday, isClock, isInstant⟩
    obtain ⟨⟨inHour, inMinute, inSecond⟩, rfl⟩ := (clock_eq_some_iff).mp isClock
    rw [secondsPerDay] at isInstant
    push_cast at isInstant
    have isLocal : localSecond offset instant =
        date * 86400 + (calendar.hour * 3600 + calendar.minute * 60 + calendar.second) := by
      rw [localSecond]
      omega
    have onDate : localSecond offset instant / secondsPerDay = date := by
      rw [isLocal, secondsPerDay]
      omega
    refine ⟨by omega, by rwa [onDate], by rwa [onDate, ← matchesWeekday_iff], ?_, ?_, ?_⟩
    · rw [isLocal, secondsPerDay]
      omega
    · rw [isLocal]
      omega
    · rw [isLocal]
      omega

theorem occurrenceOn_eq_some_iff {calendar : CalendarExpr} {range : DateRange} {offset : Int}
    (accepted : offset.natAbs ≤ range.longestOffset) {accepts : Int → Bool} {date instant : Int} :
    calendar.occurrenceOn range offset accepts date = some instant ↔
      calendar.matchesWeekday (weekdayNumber date) = true ∧
        (∃ clock, calendar.clock = some clock ∧
          instant = (date * secondsPerDay + clock - offset) * 1000) ∧ accepts instant = true := by
  have isOffset : range.utcOffset offset = some offset := if_pos accepted
  rw [CalendarExpr.occurrenceOn, CalendarExpr.instantOn, isOffset]
  by_cases onDay : calendar.matchesWeekday (weekdayNumber date) = true
  · cases isClock : calendar.clock with
    | none => simp [onDay]
    | some clock =>
        rw [if_pos onDay, Option.bind_some, Option.map_some, Option.map_some,
          Option.filter_eq_some_iff]
        constructor
        · rintro ⟨same, isAccepted⟩
          exact ⟨onDay, ⟨clock, rfl, (Option.some.inj same).symm⟩, isAccepted⟩
        · rintro ⟨_, ⟨_, ⟨⟩, rfl⟩, isAccepted⟩
          exact ⟨rfl, isAccepted⟩
  · simp [onDay]

/-- Weekdays return every seven days. -/
theorem matchesWeekday_periodic (calendar : CalendarExpr) :
    Function.Periodic (fun date =>
        calendar.matchesWeekday (weekdayNumber date)) ((7 : Nat) : Int) := by
  intro date
  have same : weekdayNumber (date + (7 : Nat)) = weekdayNumber date := by
    rw [weekdayNumber, weekdayNumber]
    omega
  simp only [same]

/-- The occurrence of a date lies within its local day. -/
theorem bounds_of_occurrenceOn {calendar : CalendarExpr} {range : DateRange} {offset : Int}
    (accepted : offset.natAbs ≤ range.longestOffset) {accepts : Int → Bool} {date instant : Int}
    (isOccurrence : calendar.occurrenceOn range offset accepts date = some instant) :
    (date * 86400 - offset) * 1000 ≤ instant ∧
      instant ≤ (date * 86400 + 86399 - offset) * 1000 := by
  obtain ⟨_, ⟨clock, isClock, rfl⟩, _⟩ := (occurrenceOn_eq_some_iff accepted).mp isOccurrence
  obtain ⟨inDay, rfl⟩ := (clock_eq_some_iff).mp isClock
  rw [secondsPerDay]
  omega

/-- The occurrences of later dates are later. -/
theorem occurrenceOn_mono {calendar : CalendarExpr} {range : DateRange} {offset : Int}
    (accepted : offset.natAbs ≤ range.longestOffset) {accepts : Int → Bool}
    {earlier later first second : Int}
    (isFirst : calendar.occurrenceOn range offset accepts earlier = some first)
    (isSecond : calendar.occurrenceOn range offset accepts later = some second)
    (ordered : earlier ≤ later) : first ≤ second := by
  obtain ⟨_, ⟨clock, isClock, rfl⟩, _⟩ := (occurrenceOn_eq_some_iff accepted).mp isFirst
  obtain ⟨_, ⟨other, isOther, rfl⟩, _⟩ := (occurrenceOn_eq_some_iff accepted).mp isSecond
  obtain rfl : clock = other := Option.some.inj (isClock.symm.trans isOther)
  rw [secondsPerDay]
  omega

theorem CalendarExpr.Occurs.exists_occurrenceOn {calendar : CalendarExpr} {range : DateRange}
    {offset : Int} {instant : Nat} (occurs : calendar.Occurs range offset instant)
    (accepted : offset.natAbs ≤ range.longestOffset) {accepts : Int → Bool}
    (isAccepted : accepts instant = true) :
    ∃ date, range.Holds date ∧
      calendar.occurrenceOn range offset accepts date = some (instant : Int) := by
  obtain ⟨date, clock, isDate, onDay, isClock, isInstant⟩ := (occurs_iff).mp occurs
  refine ⟨date, isDate, (occurrenceOn_eq_some_iff accepted).mpr ⟨onDay, ?_, isAccepted⟩⟩
  exact ⟨clock, isClock, isInstant⟩

theorem occurs_of_occurrenceOn {calendar : CalendarExpr} {range : DateRange} {offset : Int}
    (accepted : offset.natAbs ≤ range.longestOffset) {accepts : Int → Bool} {date : Int}
    {instant : Nat} (isDate : range.Holds date)
    (isOccurrence : calendar.occurrenceOn range offset accepts date = some (instant : Int)) :
    calendar.Occurs range offset instant := by
  obtain ⟨onDay, ⟨clock, isClock, isInstant⟩, _⟩ :=
    (occurrenceOn_eq_some_iff accepted).mp isOccurrence
  exact (occurs_iff).mpr ⟨date, clock, isDate, onDay, isClock, isInstant⟩

/-! ## The searches -/

theorem DateRange.Holds.between {range : DateRange} {first last : Int} (isFirst : range.Holds first)
    (isLast : range.Holds last) {date : Int} (ordered : first ≤ date ∧ date ≤ last) :
    range.Holds date :=
  ⟨isFirst.1.trans ordered.1, ordered.2.trans isLast.2⟩

/-- What a search finds is the occurrence of the first date, in its direction, that has an
accepted one. -/
structure Finds (range : DateRange) (step : Int) (answer : Int → Option Int) (today : Int)
    (found : Option Int) : Prop where
  first : ∀ instant ∈ found, ∃ count : Nat, range.Holds (today + step * count) ∧
    answer (today + step * count) = some instant ∧
    ∀ other : Nat, answer (today + step * other) ≠ none → count ≤ other
  misses : found = none → ∀ count : Nat, range.Holds (today + step * count) →
    answer (today + step * count) = none

/-- Where every occurrence behind today is accepted, eight days are enough. -/
theorem scan_finds {calendar : CalendarExpr} {range : DateRange} {offset : Int}
    (accepted : offset.natAbs ≤ range.longestOffset) {accepts : Int → Bool} {step today : Int}
    (isStep : step = 1 ∨ step = -1) (isToday : range.Holds today)
    (behind : ∀ count : Nat, 0 < count → ∀ instant : Int,
      ((today + step * count) * 86400 - offset) * 1000 ≤ instant →
      instant ≤ ((today + step * count) * 86400 + 86399 - offset) * 1000 →
      accepts instant = true) :
    Finds range step (calendar.occurrenceOn range offset accepts) today
      (scan range.Holds step (calendar.occurrenceOn range offset accepts) 8 today) := by
  constructor
  · intro instant isFound
    obtain ⟨count, isAnswer, before, reached⟩ := exists_of_scan_eq_some isFound
    refine ⟨count, ?_, isAnswer, ?_⟩
    · rcases Nat.eq_zero_or_pos count with rfl | positive
      · simpa using isToday
      · exact reached positive
    · intro other isOther
      by_contra less
      exact isOther (before other (by omega))
  · intro isNone count isDate
    by_contra isSome
    obtain ⟨instant, isOccurrence⟩ := Option.ne_none_iff_exists'.mp isSome
    obtain ⟨_, ⟨clock, isClock, _⟩, _⟩ := (occurrenceOn_eq_some_iff accepted).mp isOccurrence
    refine isSome (silent_of_scan_eq_none (by omega) (matchesWeekday_periodic calendar) ?_ ?_
      isNone ?_)
    · intro other hasOccurrence
      obtain ⟨instant, isOccurrence⟩ := Option.ne_none_iff_exists'.mp hasOccurrence
      exact ((occurrenceOn_eq_some_iff accepted).mp isOccurrence).1
    · intro other positive _ onDay silent
      obtain ⟨inDay, isSum⟩ := (clock_eq_some_iff).mp isClock
      have inReach := behind other positive
        (((today + step * other) * secondsPerDay + clock - offset) * 1000)
        (by rw [secondsPerDay]; omega) (by rw [secondsPerDay]; omega)
      have isThere := (occurrenceOn_eq_some_iff accepted).mpr
        ⟨onDay, ⟨clock, isClock, rfl⟩, inReach⟩
      rw [silent] at isThere
      cases isThere
    · intro earlier _ upTo
      rcases isStep with rfl | rfl
      · exact isToday.between isDate (by omega)
      · exact isDate.between isToday (by omega)

/-- Today is the local day of the instant. -/
theorem localSecond_today (offset : Int) (instant : Nat) :
    localSecond offset instant / secondsPerDay * 86400 ≤ localSecond offset instant ∧
      localSecond offset instant < (localSecond offset instant / secondsPerDay + 1) * 86400 := by
  rw [secondsPerDay]
  omega

theorem toU64_eq_some {instant : Int} (notNegative : 0 ≤ instant) :
    toU64 instant = some instant.toNat :=
  if_pos notNegative

/-- The date of an occurrence, counted from today in a direction. -/
theorem CalendarExpr.Occurs.exists_count {calendar : CalendarExpr} {range : DateRange}
    {offset : Int} {instant : Nat} (occurs : calendar.Occurs range offset instant)
    (accepted : offset.natAbs ≤ range.longestOffset) {accepts : Int → Bool}
    (isAccepted : accepts instant = true) {step today : Int} (isStep : step = 1 ∨ step = -1)
    (direction : 0 ≤ step * (localSecond offset instant / secondsPerDay - today)) :
    ∃ count : Nat, range.Holds (today + step * count) ∧
      calendar.occurrenceOn range offset accepts (today + step * count) = some (instant : Int) := by
  obtain ⟨date, isDate, isOccurrence⟩ := occurs.exists_occurrenceOn accepted isAccepted
  have isDay : localSecond offset instant / secondsPerDay = date := by
    have bounds := bounds_of_occurrenceOn accepted isOccurrence
    rw [localSecond, secondsPerDay]
    omega
  rw [isDay] at direction
  refine ⟨(step * (date - today)).toNat, ?_⟩
  have isPlace : today + step * ((step * (date - today)).toNat : Int) = date := by
    rw [Int.toNat_of_nonneg direction]
    rcases isStep with rfl | rfl
    · ring
    · ring
  rw [isPlace]
  exact ⟨isDate, isOccurrence⟩

/-- An earlier instant is read where its local date exists. -/
theorem DateRange.Reads.of_le {range : DateRange} {offset : Int} {instant : Nat}
    (reads : range.Reads offset instant) {event : Nat}
    (isDate : range.Holds (localSecond offset event / secondsPerDay)) (upTo : event ≤ instant) :
    range.Reads offset event := by
  obtain ⟨_, below⟩ := reads.utc
  have early := range.early
  refine ⟨reads.accepted, ⟨?_, ?_⟩, isDate⟩
  · rw [secondsPerDay]
    omega
  · rw [secondsPerDay] at below ⊢
    omega

/-- Nothing in the direction of the search stands before what is found. -/
theorem Finds.nearest {calendar : CalendarExpr} {range : DateRange} {offset : Int}
    {accepts : Int → Bool} {step today : Int} {found : Option Int}
    (finds : Finds range step (calendar.occurrenceOn range offset accepts) today found)
    (accepted : offset.natAbs ≤ range.longestOffset) (isStep : step = 1 ∨ step = -1) {other : Nat}
    (occurs : calendar.Occurs range offset other) (isAccepted : accepts other = true)
    (direction : 0 ≤ step * (localSecond offset other / secondsPerDay - today)) :
    ∃ nearest ∈ found, step * nearest ≤ step * other := by
  obtain ⟨count, isDate, isOccurrence⟩ :=
    occurs.exists_count accepted isAccepted isStep direction
  cases found with
  | none =>
      rw [finds.misses rfl count isDate] at isOccurrence
      cases isOccurrence
  | some nearest =>
      obtain ⟨least, _, isNearest, isLeast⟩ := finds.first nearest rfl
      have ordered := isLeast count (by simp [isOccurrence])
      refine ⟨nearest, rfl, ?_⟩
      rcases isStep with rfl | rfl
      · have upTo := occurrenceOn_mono accepted isNearest isOccurrence (by omega)
        omega
      · have upTo := occurrenceOn_mono accepted isOccurrence isNearest (by omega)
        omega

/-- What is found, where it is not before 1970, is an occurrence that is accepted. -/
theorem Finds.occurs {calendar : CalendarExpr} {range : DateRange} {offset : Int}
    {accepts : Int → Bool} {step today : Int} {nearest : Nat}
    (finds : Finds range step (calendar.occurrenceOn range offset accepts) today
      (some (nearest : Int)))
    (accepted : offset.natAbs ≤ range.longestOffset) :
    calendar.Occurs range offset nearest ∧ accepts nearest = true := by
  obtain ⟨count, isDate, isNearest, _⟩ := finds.first nearest rfl
  exact ⟨occurs_of_occurrenceOn accepted isDate isNearest,
    ((occurrenceOn_eq_some_iff accepted).mp isNearest).2.2⟩

theorem day_mono {offset : Int} {earlier later : Nat} (ordered : earlier ≤ later) :
    localSecond offset earlier / secondsPerDay ≤ localSecond offset later / secondsPerDay := by
  rw [localSecond, localSecond, secondsPerDay]
  omega

theorem nextOccurrenceAfter_isNext (calendar : CalendarExpr) {range : DateRange} {offset : Int}
    {instant : Nat} (reads : range.Reads offset instant) :
    ∃ next, calendar.nextOccurrenceAfter range instant offset = some next ∧
      IsNext (calendar.Occurs range offset) instant next := by
  have finds := @scan_finds calendar range offset reads.accepted
    (fun other => other > asI64 instant) 1 _ (.inl rfl) reads.zoned (by
      intro count positive other later _
      have today := localSecond_today offset instant
      rw [reads.asI64_eq, decide_eq_true_iff]
      rw [localSecond] at today later
      omega)
  rw [CalendarExpr.nextOccurrenceAfter, reads.localDate]
  refine ⟨_, rfl, ?_⟩
  dsimp only [Option.bind_some]
  generalize scan range.Holds 1 (calendar.occurrenceOn range offset
    (fun other => other > asI64 instant)) 8 (localSecond offset instant / secondsPerDay) =
    found at finds
  have nearest : ∀ other : Nat, calendar.Occurs range offset other → instant < other →
      ∃ nearest ∈ found, nearest ≤ other := by
    intro other occurs later
    have ordered := @day_mono offset _ _ later.le
    obtain ⟨nearest, isFound, upTo⟩ := finds.nearest reads.accepted (.inl rfl) occurs
      (by rw [reads.asI64_eq]; exact decide_eq_true (by omega)) (by omega)
    exact ⟨nearest, isFound, by omega⟩
  cases found with
  | none =>
      intro other occurs
      by_contra behind
      obtain ⟨_, isFound, _⟩ := nearest other occurs (by omega)
      cases isFound
  | some found =>
      obtain ⟨_, _, isOccurrence, _⟩ := finds.first found rfl
      have behind := ((occurrenceOn_eq_some_iff reads.accepted).mp isOccurrence).2.2
      rw [reads.asI64_eq, decide_eq_true_iff] at behind
      lift found to Nat using by omega
      rw [Option.bind_some, toU64_eq_some (by omega), Int.toNat_natCast]
      refine ⟨⟨(finds.occurs reads.accepted).1, by omega⟩, ?_⟩
      rintro other ⟨occurs, later⟩
      obtain ⟨_, ⟨⟩, upTo⟩ := nearest other occurs later
      omega

theorem previousOccurrenceAtOrBefore_isPrevious (calendar : CalendarExpr) {range : DateRange}
    {offset : Int} {instant : Nat} (reads : range.Reads offset instant) :
    ∃ previous, calendar.previousOccurrenceAtOrBefore range instant offset = some previous ∧
      IsPrevious (calendar.Occurs range offset) instant previous := by
  have finds := @scan_finds calendar range offset reads.accepted
    (fun other => other ≤ asI64 instant) (-1) _ (.inr rfl) reads.zoned (by
      intro count positive other _ upTo
      have today := localSecond_today offset instant
      rw [reads.asI64_eq, decide_eq_true_iff]
      rw [localSecond] at today upTo
      omega)
  rw [CalendarExpr.previousOccurrenceAtOrBefore, reads.localDate]
  refine ⟨_, rfl, ?_⟩
  dsimp only [Option.bind_some]
  generalize scan range.Holds (-1) (calendar.occurrenceOn range offset
    (fun other => other ≤ asI64 instant)) 8 (localSecond offset instant / secondsPerDay) =
    found at finds
  have nearest : ∀ other : Nat, calendar.Occurs range offset other → other ≤ instant →
      ∃ nearest ∈ found, (other : Int) ≤ nearest := by
    intro other occurs upTo
    have ordered := @day_mono offset _ _ upTo
    obtain ⟨nearest, isFound, downTo⟩ := finds.nearest reads.accepted (.inr rfl) occurs
      (by rw [reads.asI64_eq]; exact decide_eq_true (by omega)) (by omega)
    exact ⟨nearest, isFound, by omega⟩
  cases found with
  | none =>
      intro other occurs
      by_contra behind
      obtain ⟨_, isFound, _⟩ := nearest other occurs (by omega)
      cases isFound
  | some found =>
      obtain ⟨_, _, isOccurrence, _⟩ := finds.first found rfl
      have upTo := ((occurrenceOn_eq_some_iff reads.accepted).mp isOccurrence).2.2
      rw [reads.asI64_eq, decide_eq_true_iff] at upTo
      rw [Option.bind_some, toU64]
      by_cases notNegative : 0 ≤ found
      · rw [if_pos notNegative]
        lift found to Nat using notNegative
        rw [Int.toNat_natCast]
        refine ⟨⟨(finds.occurs reads.accepted).1, by omega⟩, ?_⟩
        rintro other ⟨occurs, isBefore⟩
        obtain ⟨_, ⟨⟩, downTo⟩ := nearest other occurs isBefore
        omega
      · -- the occurrence before 1970 is no instant
        rw [if_neg notNegative]
        intro other occurs
        by_contra behind
        obtain ⟨_, ⟨⟩, downTo⟩ := nearest other occurs (by omega)
        omega

/-! ## Neighbours -/

/-- Around an instant the searches return the exact neighbours, an occurrence is its own previous
one, and the search onward from the previous one passes the instant. -/
structure CalendarExpr.Adjacent (calendar : CalendarExpr) (range : DateRange) (offset : Int)
    (instant : Nat) (previous next : Option Nat) : Prop where
  before : calendar.previousOccurrenceAtOrBefore range instant offset = some previous
  behind : calendar.nextOccurrenceAfter range instant offset = some next
  isPrevious : IsPrevious (calendar.Occurs range offset) instant previous
  isNext : IsNext (calendar.Occurs range offset) instant next
  itself : calendar.Occurs range offset instant → previous = some instant
  onward : ∀ event ∈ previous, ∃ following,
    calendar.nextOccurrenceAfter range event offset = some following ∧
      ∀ later ∈ following, instant < later

/-- Wherever the `time` crate has a local time for the instant, the searches are exact. -/
theorem exists_adjacent (calendar : CalendarExpr) (range : DateRange) (offset : Int)
    (instant : Nat) (reads : range.Reads offset instant) :
    ∃ previous next, calendar.Adjacent range offset instant previous next := by
  obtain ⟨previous, before, isPrevious⟩ :=
    previousOccurrenceAtOrBefore_isPrevious calendar reads
  obtain ⟨next, behind, isNext⟩ := nextOccurrenceAfter_isNext calendar reads
  refine ⟨previous, next, before, behind, isPrevious, isNext, isPrevious.eq_of_occurs, ?_⟩
  rintro event ⟨⟩
  obtain ⟨occurs, upTo⟩ := isPrevious.occurs_of_mem
  obtain ⟨following, isFollowing, isNextEvent⟩ :=
    nextOccurrenceAfter_isNext calendar (reads.of_le occurs.date upTo)
  refine ⟨following, isFollowing, ?_⟩
  rintro later ⟨⟩
  exact isPrevious.lt_next isNextEvent

def sundays : CalendarExpr := ⟨[6], 0, 0, 0⟩

theorem sundays_adjacent :
    ∃ previous next, sundays.Adjacent .standard 19800 1785580452000 previous next :=
  exists_adjacent sundays .standard 19800 1785580452000 ⟨by decide, by decide, by decide⟩

def daily : CalendarExpr := ⟨[], 0, 0, 0⟩

/-- The first instant of the year 10000 is not read, though the day before it has an occurrence. -/
theorem not_adjacent_beyond_dates :
    ¬∃ previous next, daily.Adjacent .standard 0 253402300800000 previous next := by
  rintro ⟨previous, next, before, _, isPrevious, _, _, _⟩
  have unread : daily.previousOccurrenceAtOrBefore .standard 253402300800000 0 = some none := by
    decide
  rw [unread] at before
  cases before
  have occurs : daily.Occurs .standard 0 253402214400000 :=
    ⟨by decide, by decide, .inl rfl, by decide, by decide, by decide⟩
  exact absurd (isPrevious _ occurs) (by decide)

end Yggterm.Automations
