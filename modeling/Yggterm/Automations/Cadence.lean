import Yggterm.Automations.Bookkeeping
import Yggterm.Automations.Calendar

/-!
# The cadence of an automation

The timer of an automation wakes at every occurrence of its calendar, and a rule on the number of
the week decides which of them run.  `next_honoured_run_after` goes from one occurrence to the
next until the rule accepts one, and gives up after 64 of them.
-/

namespace Yggterm.Automations

open Neighbours

/-- An automation with the fields that schedule it. -/
structure ScheduledAutomation extends Automation where
  calendar : CalendarExpr
  everyNWeeks : Nat
  anchorWeek : Nat

/-- `u32::try_from`. -/
def toU32 (value : Int) : Option Nat :=
  if 0 ≤ value ∧ value < 2 ^ 32 then some value.toNat else none

/-- The number of whole weeks from Monday, 1970-01-05.  The outer value is `none` where
`to_offset` panics. -/
def isoWeekNumber (range : DateRange) (instantMs : Nat) (utcOffsetSecs : Int) :
    Option (Option Nat) :=
  (range.localDate instantMs utcOffsetSecs).map fun found => found.bind fun date =>
    toU32 ((date - 4) / 7)

def ScheduledAutomation.cadenceHonours (automation : ScheduledAutomation) (range : DateRange)
    (dueAtMs : Nat) (utcOffsetSecs : Int) : Option Bool :=
  if automation.everyNWeeks ≤ 1 then some true
  else (isoWeekNumber range dueAtMs utcOffsetSecs).map fun week =>
    match week with
    | none => true
    | some week =>
        week % automation.everyNWeeks == automation.anchorWeek % automation.everyNWeeks

/-- The loop over the candidates. -/
def ScheduledAutomation.nextHonouredWithin (automation : ScheduledAutomation) (range : DateRange)
    (utcOffsetSecs : Int) : Nat → Nat → Option (Option Nat)
  | 0, _ => some none
  | fuel + 1, cursor =>
      match automation.calendar.nextOccurrenceAfter range cursor utcOffsetSecs with
      | none => none
      | some none => some none
      | some (some candidate) =>
          match automation.cadenceHonours range candidate utcOffsetSecs with
          | none => none
          | some true => some (some candidate)
          | some false => automation.nextHonouredWithin range utcOffsetSecs fuel candidate

def ScheduledAutomation.nextHonouredRunAfter (automation : ScheduledAutomation)
    (range : DateRange) (afterMs : Nat) (utcOffsetSecs : Int) : Option (Option Nat) :=
  automation.nextHonouredWithin range utcOffsetSecs 64 afterMs

/-- An occurrence that the automation's own rule accepts. -/
def ScheduledAutomation.Honours (automation : ScheduledAutomation) (range : DateRange)
    (offset : Int) (event : Nat) : Prop :=
  automation.calendar.Occurs range offset event ∧
    (automation.cadenceHonours range event offset == some true) = true

/-- The instant does not make the `time` crate panic, and the next run, where there is one, is
among the 64 occurrences behind an instant that the crate reads. -/
structure ScheduledAutomation.InReach (automation : ScheduledAutomation) (range : DateRange)
    (offset : Int) (instant : Nat) : Prop where
  dated : range.localDate instant offset ≠ none
  near : ∀ run, IsNext (automation.Honours range offset) instant (some run) →
    range.Reads offset instant ∧
      (between (automation.calendar.Occurs range offset) instant run).encard ≤ 64

theorem reads_of_localDate {range : DateRange} {offset : Int} {instant : Nat} {date : Int}
    (isDate : range.localDate instant offset = some (some date)) : range.Reads offset instant := by
  rw [DateRange.localDate, DateRange.utcOffset] at isDate
  by_cases accepted : offset.natAbs ≤ range.longestOffset
  · rw [if_pos accepted] at isDate
    dsimp only at isDate
    by_cases utc : range.Holds ((instant / 1000 : Nat) / secondsPerDay)
    · rw [if_pos utc] at isDate
      by_cases zoned : range.Holds (localSecond offset instant / secondsPerDay)
      · exact ⟨accepted, utc, zoned⟩
      · rw [if_neg zoned] at isDate
        cases isDate
    · rw [if_neg utc] at isDate
      cases isDate
  · rw [if_neg accepted] at isDate
    cases isDate

/-- The local date of an occurrence exists. -/
theorem CalendarExpr.Occurs.localDate_ne_none {calendar : CalendarExpr} {range : DateRange}
    {offset : Int} {event : Nat} (occurs : calendar.Occurs range offset event) :
    range.localDate event offset ≠ none := by
  rw [DateRange.localDate, DateRange.utcOffset]
  by_cases accepted : offset.natAbs ≤ range.longestOffset
  · rw [if_pos accepted]
    dsimp only
    by_cases utc : range.Holds ((event / 1000 : Nat) / secondsPerDay)
    · rw [if_pos utc, if_pos occurs.date]
      simp
    · rw [if_neg utc]
      simp
  · rw [if_neg accepted]
    simp

/-- The rule decides every occurrence, and rejects only those whose local date is read. -/
theorem cadenceHonours_of_occurs (automation : ScheduledAutomation) {range : DateRange}
    {offset : Int} {event : Nat} (occurs : automation.calendar.Occurs range offset event) :
    ∃ honoured, automation.cadenceHonours range event offset = some honoured ∧
      (honoured = false → range.Reads offset event) := by
  rw [ScheduledAutomation.cadenceHonours, isoWeekNumber]
  by_cases always : automation.everyNWeeks ≤ 1
  · exact ⟨true, if_pos always, by simp⟩
  · rw [if_neg always]
    obtain ⟨found, isFound⟩ := Option.ne_none_iff_exists'.mp occurs.localDate_ne_none
    rw [isFound]
    refine ⟨_, rfl, ?_⟩
    cases found with
    | none => simp
    | some date =>
        intro _
        exact reads_of_localDate isFound

/-- From an instant that is read on, the loop is the search for the next event that is kept. -/
theorem nextHonouredWithin_eq (automation : ScheduledAutomation) {range : DateRange}
    {offset : Int} (fuel : Nat) {cursor : Nat} (reads : range.Reads offset cursor) :
    automation.nextHonouredWithin range offset fuel cursor =
      some (firstKept
        (fun cursor => (automation.calendar.nextOccurrenceAfter range cursor offset).getD none)
        (fun event => automation.cadenceHonours range event offset == some true) fuel cursor) := by
  induction fuel generalizing cursor with
  | zero => rfl
  | succ fuel inductionHypothesis =>
      obtain ⟨next, isNext, isLeast⟩ := nextOccurrenceAfter_isNext automation.calendar reads
      rw [ScheduledAutomation.nextHonouredWithin, firstKept, isNext]
      cases next with
      | none => rfl
      | some candidate =>
          obtain ⟨honoured, isHonoured, readsOn⟩ :=
            cadenceHonours_of_occurs automation isLeast.1.1
          dsimp only [Option.getD_some]
          rw [isHonoured]
          cases honoured with
          | true => rfl
          | false => exact inductionHypothesis (readsOn rfl)

theorem sound_next (automation : ScheduledAutomation) (range : DateRange) (offset : Int)
    (cursor : Nat) (reads : range.Reads offset cursor) :
    IsNext (automation.calendar.Occurs range offset) cursor
      ((automation.calendar.nextOccurrenceAfter range cursor offset).getD none) := by
  obtain ⟨next, isNext, isLeast⟩ := nextOccurrenceAfter_isNext automation.calendar reads
  rwa [isNext, Option.getD_some]

/-- The search goes on only from a candidate that is read. -/
theorem reads_on (automation : ScheduledAutomation) (range : DateRange) (offset : Int)
    (cursor candidate : Nat) (reads : range.Reads offset cursor)
    (isNext : (automation.calendar.nextOccurrenceAfter range cursor offset).getD none =
      some candidate)
    (dropped : (automation.cadenceHonours range candidate offset == some true) = false) :
    range.Reads offset candidate := by
  have isLeast := sound_next automation range offset cursor reads
  rw [isNext] at isLeast
  obtain ⟨honoured, isHonoured, readsOn⟩ := cadenceHonours_of_occurs automation isLeast.1.1
  rw [isHonoured] at dropped
  apply readsOn
  simpa using dropped

/-- The next run is found exactly where it is in reach. -/
theorem nextHonouredRunAfter_iff (automation : ScheduledAutomation) (range : DateRange)
    (offset : Int) (instant : Nat) :
    (∃ run, automation.nextHonouredRunAfter range instant offset = some run ∧
      IsNext (automation.Honours range offset) instant run) ↔
        automation.InReach range offset instant := by
  obtain ⟨kept, isKept⟩ := exists_isNext (automation.Honours range offset) instant
  rw [ScheduledAutomation.nextHonouredRunAfter]
  cases isDate : range.localDate instant offset with
  | none =>
      have panics : automation.nextHonouredWithin range offset 64 instant = none := by
        rw [ScheduledAutomation.nextHonouredWithin, CalendarExpr.nextOccurrenceAfter, isDate]
        rfl
      rw [panics]
      constructor
      · rintro ⟨run, isRun, _⟩
        cases isRun
      · intro inReach
        exact absurd isDate inReach.dated
  | some found =>
      cases found with
      | none =>
          have unread : automation.nextHonouredWithin range offset 64 instant = some none := by
            rw [ScheduledAutomation.nextHonouredWithin, CalendarExpr.nextOccurrenceAfter, isDate]
            rfl
          rw [unread]
          constructor
          · rintro ⟨run, isRun, isNext⟩
            cases isRun
            refine ⟨by simp [isDate], ?_⟩
            intro run isKept
            cases isNext.unique isKept
          · intro inReach
            refine ⟨none, rfl, ?_⟩
            cases kept with
            | none => exact isKept
            | some run =>
                have isRead := (inReach.near run isKept).1.localDate
                rw [isDate] at isRead
                cases isRead
      | some date =>
          have reads := reads_of_localDate isDate
          rw [nextHonouredWithin_eq automation 64 reads]
          have search := firstKept_eq_iff (sound_next automation range offset)
            (reads_on automation range offset) 64 reads isKept
          constructor
          · rintro ⟨run, isRun, isNext⟩
            cases isRun
            refine ⟨by simp [isDate], ?_⟩
            intro run isRun
            obtain rfl := isKept.unique isRun
            exact ⟨reads, search.mp (isNext.unique isRun) run rfl⟩
          · intro inReach
            refine ⟨kept, ?_, isKept⟩
            rw [search.mpr]
            rintro run rfl
            exact (inReach.near run isKept).2

/-- Every night at half past three, in one week of twelve. -/
def nightly : ScheduledAutomation where
  id := "nightly"
  deadlineSecs := 3600
  lastRunAtMs := none
  runs := []
  calendar := ⟨[], 3, 30, 0⟩
  everyNWeeks := 12
  anchorWeek := 2951

/-- From the last night of its week on, the next run is 78 nights away, and none is found. -/
theorem nightly_gives_up :
    ¬∃ run, nightly.nextHonouredRunAfter .standard 1785672000000 0 = some run ∧
      IsNext (nightly.Honours .standard 0) 1785672000000 run := by
  rintro ⟨run, isRun, isNext⟩
  have givesUp : nightly.nextHonouredRunAfter .standard 1785672000000 0 = some none := by
    decide
  rw [givesUp] at isRun
  cases isRun
  have honours : nightly.Honours .standard 0 1792380600000 :=
    ⟨⟨by decide, by decide, .inl rfl, by decide, by decide, by decide⟩, by decide⟩
  exact absurd (isNext _ honours) (by decide)

end Yggterm.Automations
