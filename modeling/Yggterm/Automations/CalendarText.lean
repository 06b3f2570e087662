import Mathlib.Data.List.Destutter
import Mathlib.Data.List.Sort
import Yggterm.AttachSeed.Classify
import Yggterm.Automations.Calendar
import Yggterm.Library.Lines
import Yggterm.Library.Search

/-!
# The text of a calendar

`parse_calendar` reads the supported subset of `OnCalendar`, and `to_on_calendar` writes a calendar
for the generated unit.
-/

namespace Yggterm.Automations

open AttachSeed (splitWhitespace splitWhitespace_append_cons splitWhitespace_of_solid
  splitWhitespace_trim toAsciiLowercase)
open Search Text

def supportedCalendarSubset : List Char :=
  ("supported: `[<weekdays> ]*-*-* HH:MM[:SS]`, plus the aliases `daily`, `weekly` " ++
    "and `hourly`. Weekdays are `Sun`, a comma list `Mon,Wed,Fri`, or a range " ++
    "`Mon..Fri`. Examples: `Sun *-*-* 00:00:00` (the fortnightly-infra case), " ++
    "`*-*-* 03:30:00` (nightly), `Mon..Fri *-*-* 09:00`. Anything richer than " ++
    "this — explicit dates, minute repetition, timezone suffixes — is REFUSED " ++
    "rather than approximated, because a schedule we evaluate differently from " ++
    "systemd would fire at an hour nobody chose.").toList

/-- Why a text is not read as a calendar. -/
inductive CalendarRefusal where
  | empty
  | hourly
  | unreadable (expr : List Char)
  | pinsDate (date : List Char)
  | unknownWeekday (name : List Char)
  | notClock (spec : List Char)
  | tooManyGroups (spec : List Char)
  | outOfRange (name raw : List Char)
  deriving DecidableEq

/-- The message, where `debug` writes a text as `{:?}` does. -/
def CalendarRefusal.message (debug : List Char → List Char) (refusal : CalendarRefusal) :
    List Char :=
  let reason := match refusal with
    | empty => "empty calendar expression".toList
    | hourly => ("`hourly` fires 24 times a day and an automation opens an agent session each " ++
        "time").toList
    | unreadable expr =>
        "cannot read ".toList ++ debug expr ++ " as a calendar expression".toList
    | pinsDate date => debug date ++
        " pins a date, and this scheduler evaluates recurring calendars only".toList
    | unknownWeekday name => "unknown weekday ".toList ++ debug name
    | notClock spec => debug spec ++ " is not a HH:MM[:SS] time".toList
    | tooManyGroups spec => debug spec ++ " has too many `:` groups".toList
    | outOfRange name raw => name ++ ' ' :: debug raw ++ " is out of range".toList
  reason ++ ". ".toList ++ supportedCalendarSubset

def weekdaySpellings : List (List (List Char)) :=
  [["mon".toList, "monday".toList],
    ["tue".toList, "tues".toList, "tuesday".toList],
    ["wed".toList, "weds".toList, "wednesday".toList],
    ["thu".toList, "thur".toList, "thurs".toList, "thursday".toList],
    ["fri".toList, "friday".toList],
    ["sat".toList, "saturday".toList],
    ["sun".toList, "sunday".toList]]

def weekdayIndex (name : List Char) : Option Nat :=
  weekdaySpellings.findIdx? fun spellings => spellings.contains (toAsciiLowercase name)

/-- The index of a name, or the refusal of what is shown for it. -/
def knownWeekday (shown name : List Char) : Except CalendarRefusal Nat :=
  match weekdayIndex name with
  | some day => .ok day
  | none => .error (.unknownWeekday shown)

/-- The loop over a range, which wraps (`Fri..Mon` is four days). -/
def weekdaysUpTo (last : Nat) : Nat → Nat → List Nat
  | 0, _ => []
  | turns + 1, day =>
      if day = last then [day] else day :: weekdaysUpTo last turns ((day + 1) % 7)

def weekdaysOfPart (part : List Char) : Except CalendarRefusal (List Nat) :=
  let part := trim part
  if part = [] then .ok []
  else
    match findText "..".toList part with
    | some (start, stop) => do
        let first ← knownWeekday start (trim start)
        let last ← knownWeekday stop (trim stop)
        return weekdaysUpTo last 7 first
    | none => do return [← knownWeekday part part]

def parseWeekdaySpec (spec : List Char) : Except CalendarRefusal (List Nat) := do
  let days ← (spec.splitOn ',').mapM weekdaysOfPart
  return (days.flatten.insertionSort (· ≤ ·)).destutter (· ≠ ·)

/-- A field of the clock. -/
def parseClockField (raw name : List Char) (max : Nat) : Except CalendarRefusal Nat :=
  match (parseUnsigned 8 raw).filter (· ≤ max) with
  | some value => .ok value
  | none => .error (.outOfRange name raw)

def parseClock (spec : List Char) : Except CalendarRefusal (Nat × Nat × Nat) :=
  match spec.splitOn ':' with
  | [] | [_] => .error (.notClock spec)
  | hour :: minute :: rest =>
      if 1 < rest.length then .error (.tooManyGroups spec)
      else do
        let hour ← parseClockField hour "hour".toList 23
        let minute ← parseClockField minute "minute".toList 59
        let second ← parseClockField (rest.headD ['0']) "second".toList 59
        return (hour, minute, second)

def everyDate : List Char := "*-*-*".toList

/-- The weekdays, the date and the clock of an expression. -/
def splitCalendar (expr : List Char) :
    Except CalendarRefusal (List Nat × List Char × List Char) :=
  match splitWhitespace expr with
  | [first, second] =>
      if '-' ∈ first then .ok ([], first, second) else .error (.unreadable expr)
  | [days, date, clock] => do return (← parseWeekdaySpec days, date, clock)
  | [clock] => if ':' ∈ clock then .ok ([], everyDate, clock) else .error (.unreadable expr)
  | _ => .error (.unreadable expr)

def parseCalendar (expr : List Char) : Except CalendarRefusal CalendarExpr :=
  let expr := trim expr
  if expr = [] then .error .empty
  else
    let lower := toAsciiLowercase expr
    if lower = "daily".toList ∨ lower = "midnight".toList then .ok ⟨[], 0, 0, 0⟩
    else if lower = "weekly".toList then .ok ⟨[0], 0, 0, 0⟩
    else if lower = "hourly".toList then .error .hourly
    else do
      let (weekdays, date, clock) ← splitCalendar expr
      if date ≠ everyDate then .error (.pinsDate date)
      else
        let (hour, minute, second) ← parseClock clock
        return ⟨weekdays, hour, minute, second⟩

def weekdayName : Nat → List Char
  | 0 => "Mon".toList
  | 1 => "Tue".toList
  | 2 => "Wed".toList
  | 3 => "Thu".toList
  | 4 => "Fri".toList
  | 5 => "Sat".toList
  | _ => "Sun".toList

/-- `{:02}` -/
def twoDigits (value : Nat) : List Char := (Nat.toDigits 10 value).leftpad 2 '0'

def CalendarExpr.onClock (calendar : CalendarExpr) : List Char :=
  twoDigits calendar.hour ++ ':' :: twoDigits calendar.minute ++ ':' :: twoDigits calendar.second

def CalendarExpr.toOnCalendar (calendar : CalendarExpr) : List Char :=
  let days :=
    if calendar.weekdays = [] then []
    else [','].intercalate (calendar.weekdays.map weekdayName) ++ [' ']
  days ++ everyDate ++ ' ' :: calendar.onClock

/-! ## What is read -/

/-- The calendars that are read from texts. -/
structure CalendarExpr.WellFormed (calendar : CalendarExpr) : Prop where
  sorted : calendar.weekdays.Pairwise (· < ·)
  week : ∀ day ∈ calendar.weekdays, day < 7
  hour : calendar.hour ≤ 23
  minute : calendar.minute ≤ 59
  second : calendar.second ≤ 59

theorem weekdayIndex_lt {name : List Char} {day : Nat} (isDay : weekdayIndex name = some day) :
    day < 7 :=
  (List.findIdx?_eq_some_iff_getElem.mp isDay).1

theorem knownWeekday_lt {shown name : List Char} {day : Nat}
    (isDay : knownWeekday shown name = .ok day) : day < 7 := by
  rw [knownWeekday] at isDay
  cases found : weekdayIndex name with
  | none =>
      rw [found] at isDay
      cases isDay
  | some index =>
      rw [found] at isDay
      cases isDay
      exact weekdayIndex_lt found

/-- The days from the first to the last, in the circle of the week. -/
theorem weekdaysUpTo_eq {last day turns : Nat} (isLast : last < 7) (isDay : day < 7)
    (enough : (last + 7 - day) % 7 < turns) :
    weekdaysUpTo last turns day =
      (List.range ((last + 7 - day) % 7 + 1)).map fun steps => (day + steps) % 7 := by
  induction turns generalizing day with
  | zero => omega
  | succ turns inductionHypothesis =>
      rw [weekdaysUpTo]
      by_cases arrived : day = last
      · subst arrived
        have noSteps : (day + 7 - day) % 7 = 0 := by omega
        rw [if_pos rfl, noSteps]
        simp [Nat.mod_eq_of_lt isDay]
      · have fewer : (last + 7 - day) % 7 = (last + 7 - (day + 1) % 7) % 7 + 1 := by omega
        rw [if_neg arrived, fewer, List.range_succ_eq_map, List.map_cons,
          inductionHypothesis (Nat.mod_lt _ (by decide)) (by omega), List.map_map]
        congr 1
        · rw [Nat.add_zero, Nat.mod_eq_of_lt isDay]
        · apply List.map_congr_left
          intro steps _
          rw [Function.comp_apply, Nat.mod_add_mod, Nat.add_right_comm, Nat.add_assoc]

theorem lt_of_mem_weekdaysUpTo {first last day : Nat} (isFirst : first < 7) (isLast : last < 7)
    (member : day ∈ weekdaysUpTo last 7 first) : day < 7 := by
  rw [weekdaysUpTo_eq isLast isFirst (Nat.mod_lt _ (by decide))] at member
  obtain ⟨steps, _, rfl⟩ := List.mem_map.mp member
  exact Nat.mod_lt _ (by decide)

theorem lt_of_mem_weekdaysOfPart {part : List Char} {days : List Nat}
    (isPart : weekdaysOfPart part = .ok days) {day : Nat} (member : day ∈ days) : day < 7 := by
  simp only [weekdaysOfPart] at isPart
  split at isPart
  · cases isPart
    cases member
  · split at isPart
    · obtain ⟨first, isFirst, later⟩ := ok_of_bind isPart
      obtain ⟨last, isLast, done⟩ := ok_of_bind later
      cases done
      exact lt_of_mem_weekdaysUpTo (knownWeekday_lt isFirst) (knownWeekday_lt isLast) member
    · obtain ⟨only, isOnly, done⟩ := ok_of_bind isPart
      cases done
      rw [List.mem_singleton.mp member]
      exact knownWeekday_lt isOnly

theorem lt_of_mem_mapM {parts : List (List Char)} {days : List (List Nat)}
    (read : parts.mapM weekdaysOfPart = .ok days) {day : Nat} (member : day ∈ days.flatten) :
    day < 7 := by
  induction parts generalizing days with
  | nil =>
      cases read
      cases member
  | cons part rest inductionHypothesis =>
      rw [List.mapM_cons] at read
      obtain ⟨first, isFirst, later⟩ := ok_of_bind read
      obtain ⟨others, isOthers, done⟩ := ok_of_bind later
      cases done
      rcases List.mem_append.mp member with inFirst | inOthers
      · exact lt_of_mem_weekdaysOfPart isFirst inFirst
      · exact inductionHypothesis isOthers inOthers

/-- Sorting and dropping repetitions leaves a rising list. -/
theorem rising_sortDedup (days : List Nat) :
    ((days.insertionSort (· ≤ ·)).destutter (· ≠ ·)).Pairwise (· < ·) := by
  have sorted := (List.pairwise_insertionSort (· ≤ ·) days).sublist
    (List.destutter_sublist (· ≠ ·) (days.insertionSort (· ≤ ·)))
  have apart := List.isChain_destutter (· ≠ ·) (days.insertionSort (· ≤ ·))
  rw [List.isChain_iff_getElem] at apart
  refine List.IsChain.pairwise (List.isChain_iff_getElem.mpr fun index inside => ?_)
  exact Nat.lt_of_le_of_ne (sorted.isChain.getElem index inside) (apart index inside)

theorem parseWeekdaySpec_ok {spec : List Char} {days : List Nat}
    (isSpec : parseWeekdaySpec spec = .ok days) :
    days.Pairwise (· < ·) ∧ ∀ day ∈ days, day < 7 := by
  obtain ⟨read, isRead, done⟩ := ok_of_bind isSpec
  cases done
  refine ⟨rising_sortDedup read.flatten, fun day member => ?_⟩
  have sorted := (List.destutter_sublist _ _).subset member
  exact lt_of_mem_mapM isRead ((List.mem_insertionSort _).mp sorted)

theorem parseClockField_le {raw name : List Char} {max value : Nat}
    (isField : parseClockField raw name max = .ok value) : value ≤ max := by
  rw [parseClockField] at isField
  split at isField
  · next found =>
      cases isField
      exact of_decide_eq_true (Option.filter_eq_some_iff.mp found).2
  · cases isField

theorem parseClock_ok {spec : List Char} {hour minute second : Nat}
    (isClock : parseClock spec = .ok (hour, minute, second)) :
    hour ≤ 23 ∧ minute ≤ 59 ∧ second ≤ 59 := by
  rw [parseClock] at isClock
  split at isClock
  · cases isClock
  · cases isClock
  · split at isClock
    · cases isClock
    · obtain ⟨_, isHour, later⟩ := ok_of_bind isClock
      obtain ⟨_, isMinute, last⟩ := ok_of_bind later
      obtain ⟨_, isSecond, done⟩ := ok_of_bind last
      cases done
      exact ⟨parseClockField_le isHour, parseClockField_le isMinute, parseClockField_le isSecond⟩

theorem splitCalendar_ok {expr date clock : List Char} {days : List Nat}
    (isSplit : splitCalendar expr = .ok (days, date, clock)) :
    days.Pairwise (· < ·) ∧ ∀ day ∈ days, day < 7 := by
  have none : ([] : List Nat).Pairwise (· < ·) ∧ ∀ day ∈ ([] : List Nat), day < 7 := by simp
  rw [splitCalendar] at isSplit
  split at isSplit
  · split at isSplit
    · cases isSplit
      exact none
    · cases isSplit
  · obtain ⟨read, isRead, done⟩ := ok_of_bind isSplit
    cases done
    exact parseWeekdaySpec_ok isRead
  · split at isSplit
    · cases isSplit
      exact none
    · cases isSplit
  · cases isSplit

/-- What is read is well formed. -/
theorem wellFormed_of_parseCalendar {expr : List Char} {calendar : CalendarExpr}
    (accepted : parseCalendar expr = .ok calendar) : calendar.WellFormed := by
  simp only [parseCalendar] at accepted
  split at accepted
  · cases accepted
  · split at accepted
    · cases accepted
      exact ⟨by simp, by simp, by decide, by decide, by decide⟩
    · split at accepted
      · cases accepted
        exact ⟨by simp, by simp, by decide, by decide, by decide⟩
      · split at accepted
        · cases accepted
        · obtain ⟨⟨days, date, clock⟩, isSplit, later⟩ := ok_of_bind accepted
          simp only at later
          split at later
          · cases later
          · obtain ⟨⟨hour, minute, second⟩, isClock, done⟩ := ok_of_bind later
            cases done
            obtain ⟨sorted, week⟩ := splitCalendar_ok isSplit
            obtain ⟨inDay, inHour, inMinute⟩ := parseClock_ok isClock
            exact ⟨sorted, week, inDay, inHour, inMinute⟩

/-! ## What is written -/

theorem weekdayIndex_weekdayName {day : Nat} (inWeek : day < 7) :
    weekdayIndex (weekdayName day) = some day := by
  have all : ∀ day : Fin 7, weekdayIndex (weekdayName day) = some (day : Nat) := by decide
  exact all ⟨day, inWeek⟩

theorem clean_weekdayName {day : Nat} (inWeek : day < 7) {char : Char}
    (member : char ∈ weekdayName day) : isWhitespace char = false ∧ char ≠ ',' ∧ char ≠ '.' := by
  have all : ∀ day : Fin 7, (weekdayName day).all (fun char =>
      !isWhitespace char && char != ',' && char != '.') = true := by decide
  simpa [and_assoc] using List.all_eq_true.mp (all ⟨day, inWeek⟩) char member

theorem weekdayName_ne_nil {day : Nat} (inWeek : day < 7) : weekdayName day ≠ [] := by
  have all : ∀ day : Fin 7, weekdayName day ≠ [] := by decide
  exact all ⟨day, inWeek⟩

theorem weekdaysOfPart_weekdayName {day : Nat} (inWeek : day < 7) :
    weekdaysOfPart (weekdayName day) = .ok [day] := by
  have trimmed : trim (weekdayName day) = weekdayName day :=
    trim_of_forall_not_isWhitespace fun char member => (clean_weekdayName inWeek member).1
  have noRange : findText "..".toList (weekdayName day) = none := by
    apply findText_eq_none_iff.mpr
    rintro ⟨before, after, isName⟩
    have isDot : '.' ∈ weekdayName day := by simp [← isName]
    exact (clean_weekdayName inWeek isDot).2.2 rfl
  rw [weekdaysOfPart, trimmed]
  simp only [if_neg (weekdayName_ne_nil inWeek), noRange, knownWeekday,
    weekdayIndex_weekdayName inWeek]
  rfl

theorem mapM_weekdayName {days : List Nat} (week : ∀ day ∈ days, day < 7) :
    (days.map weekdayName).mapM weekdaysOfPart = .ok (days.map fun day => [day]) := by
  induction days with
  | nil => rfl
  | cons day rest inductionHypothesis =>
      obtain ⟨inWeek, others⟩ := List.forall_mem_cons.mp week
      rw [List.map_cons, List.mapM_cons, weekdaysOfPart_weekdayName inWeek,
        inductionHypothesis others]
      rfl

/-- The days of a rising list are read back from their names. -/
theorem parseWeekdaySpec_names {days : List Nat} (nonempty : days ≠ [])
    (sorted : days.Pairwise (· < ·)) (week : ∀ day ∈ days, day < 7) :
    parseWeekdaySpec ([','].intercalate (days.map weekdayName)) = .ok days := by
  have parts : ([','].intercalate (days.map weekdayName)).splitOn ',' = days.map weekdayName := by
    apply List.splitOn_intercalate
    · intro name isName comma
      obtain ⟨day, member, rfl⟩ := List.mem_map.mp isName
      exact (clean_weekdayName (week day member) comma).2.1 rfl
    · simpa using nonempty
  have inOrder : days.insertionSort (· ≤ ·) = days :=
    (sorted.imp fun less => Nat.le_of_lt less).insertionSort_eq
  have noneTwice : days.destutter (· ≠ ·) = days :=
    List.destutter_of_isChain _ days (sorted.imp fun less => Nat.ne_of_lt less).isChain
  have joined : (days.map fun day => [day]).flatten = days := by
    rw [← List.flatMap_def, List.flatMap_singleton']
  rw [parseWeekdaySpec, parts, mapM_weekdayName week]
  change Except.ok (((days.map fun day => [day]).flatten.insertionSort
    (· ≤ ·)).destutter (· ≠ ·)) = _
  rw [joined, inOrder, noneTwice]

theorem mem_twoDigits {value : Nat} {char : Char} (member : char ∈ twoDigits value) :
    char.isDigit = true := by
  rcases List.mem_append.mp member with isZero | isDigit
  · rw [List.eq_of_mem_replicate isZero]
    decide
  · exact Nat.isDigit_of_mem_toDigits (by decide) (by decide) isDigit

theorem parseClockField_twoDigits {value max : Nat} (name : List Char) (allowed : value ≤ max)
    (small : max < 256) : parseClockField (twoDigits value) name max = .ok value := by
  have isRead : parseUnsigned 8 (twoDigits value) = some value := by
    rw [twoDigits, List.leftpad, parseUnsigned_zeros, if_pos (by omega)]
  have kept : (some value).filter (· ≤ max) = some value := by simp [allowed]
  rw [parseClockField, isRead, kept]

theorem colon_not_mem_twoDigits (value : Nat) : ':' ∉ twoDigits value := by
  intro member
  exact absurd (mem_twoDigits member) (by decide)

theorem parseClock_onClock {calendar : CalendarExpr} (wellFormed : calendar.WellFormed) :
    parseClock calendar.onClock = .ok (calendar.hour, calendar.minute, calendar.second) := by
  have isClock : calendar.onClock = [':'].intercalate
      [twoDigits calendar.hour, twoDigits calendar.minute, twoDigits calendar.second] := by
    simp [CalendarExpr.onClock, List.intercalate]
  have parts : calendar.onClock.splitOn ':' =
      [twoDigits calendar.hour, twoDigits calendar.minute, twoDigits calendar.second] := by
    rw [isClock]
    apply List.splitOn_intercalate
    · simp [colon_not_mem_twoDigits]
    · simp
  rw [parseClock, parts]
  simp only [List.length_singleton, Nat.lt_irrefl, if_false, List.headD_cons,
    parseClockField_twoDigits _ wellFormed.hour (by decide),
    parseClockField_twoDigits _ wellFormed.minute (by decide),
    parseClockField_twoDigits _ wellFormed.second (by decide)]
  rfl

/-! ## Back and forth -/

theorem solid_names {days : List Nat} (week : ∀ day ∈ days, day < 7) :
    ∀ char ∈ [','].intercalate (days.map weekdayName), isWhitespace char = false := by
  intro char member
  rcases mem_of_mem_intercalate member with rfl | ⟨name, isName, inName⟩
  · decide
  · obtain ⟨day, inDays, rfl⟩ := List.mem_map.mp isName
    exact (clean_weekdayName (week day inDays) inName).1

theorem solid_onClock (calendar : CalendarExpr) :
    ∀ char ∈ calendar.onClock, isWhitespace char = false := by
  intro char member
  simp only [CalendarExpr.onClock, List.mem_append, List.mem_cons] at member
  rcases member with (inHour | rfl | inMinute) | rfl | inSecond
  · exact isWhitespace_of_isDigit (mem_twoDigits inHour)
  · decide
  · exact isWhitespace_of_isDigit (mem_twoDigits inMinute)
  · decide
  · exact isWhitespace_of_isDigit (mem_twoDigits inSecond)

theorem splitWhitespace_dateAndClock (calendar : CalendarExpr) :
    splitWhitespace (everyDate ++ ' ' :: calendar.onClock) = [everyDate, calendar.onClock] := by
  have isClock : splitWhitespace calendar.onClock = [calendar.onClock] := by
    refine splitWhitespace_of_solid (solid_onClock calendar) ?_
    simp [CalendarExpr.onClock]
  have isDate : splitWhitespace everyDate = [everyDate] := by
    have solid : everyDate.all (fun char => !isWhitespace char) = true := rfl
    refine splitWhitespace_of_solid (fun char member => ?_) (List.cons_ne_nil _ _)
    simpa using List.all_eq_true.mp solid char member
  rw [splitWhitespace_append_cons (by decide), isDate, isClock]
  rfl

/-- The written text is split into the parts that it was put together from. -/
theorem splitCalendar_trim_toOnCalendar {calendar : CalendarExpr}
    (wellFormed : calendar.WellFormed) :
    splitCalendar (trim calendar.toOnCalendar) =
      .ok (calendar.weekdays, everyDate, calendar.onClock) := by
  rw [splitCalendar, splitWhitespace_trim, CalendarExpr.toOnCalendar]
  by_cases everyDay : calendar.weekdays = []
  · rw [if_pos everyDay, List.nil_append, splitWhitespace_dateAndClock, everyDay]
    rfl
  · have isNames : splitWhitespace ([','].intercalate (calendar.weekdays.map weekdayName)) =
        [[','].intercalate (calendar.weekdays.map weekdayName)] := by
      apply splitWhitespace_of_solid (solid_names wellFormed.week)
      obtain ⟨first, rest, isDays⟩ := List.exists_cons_of_ne_nil everyDay
      have inWeek := wellFormed.week first (isDays ▸ List.mem_cons_self)
      rw [isDays]
      cases rest with
      | nil => simpa using weekdayName_ne_nil inWeek
      | cons second others => simp [List.intercalate]
    rw [if_neg everyDay, List.append_assoc, List.append_assoc, List.singleton_append,
      splitWhitespace_append_cons (by decide), isNames, splitWhitespace_dateAndClock]
    simp only [List.singleton_append,
      parseWeekdaySpec_names everyDay wellFormed.sorted wellFormed.week]
    rfl

/-- A date is written, so the text is no alias. -/
theorem star_mem_trim_toOnCalendar (calendar : CalendarExpr) :
    '*' ∈ trim calendar.toOnCalendar := by
  have member : '*' ∈ calendar.toOnCalendar := by
    simp [CalendarExpr.toOnCalendar, everyDate]
  obtain ⟨front, back, isText, frontBlank, backBlank⟩ := exists_trim calendar.toOnCalendar
  have solid : isWhitespace '*' = false := by decide
  rw [isText] at member
  rcases List.mem_append.mp member with inFront | inside
  · simp [frontBlank '*' inFront] at solid
  · rcases List.mem_append.mp inside with inTrim | inBack
    · exact inTrim
    · simp [backBlank '*' inBack] at solid

theorem parseCalendar_toOnCalendar {calendar : CalendarExpr} (wellFormed : calendar.WellFormed) :
    parseCalendar calendar.toOnCalendar = .ok calendar := by
  have isStar := star_mem_trim_toOnCalendar calendar
  have stars : '*' ∈ toAsciiLowercase (trim calendar.toOnCalendar) :=
    List.mem_map.mpr ⟨'*', isStar, by decide⟩
  have noAlias : ∀ word : List Char, '*' ∉ word →
      toAsciiLowercase (trim calendar.toOnCalendar) ≠ word := by
    rintro word clean rfl
    exact clean stars
  have notDaily : ¬ (toAsciiLowercase (trim calendar.toOnCalendar) = "daily".toList ∨
      toAsciiLowercase (trim calendar.toOnCalendar) = "midnight".toList) := by
    rintro (isDaily | isMidnight)
    · exact noAlias _ (by decide) isDaily
    · exact noAlias _ (by decide) isMidnight
  simp only [parseCalendar, if_neg (List.ne_nil_of_mem isStar), if_neg notDaily,
    if_neg (noAlias "weekly".toList (by decide)), if_neg (noAlias "hourly".toList (by decide)),
    splitCalendar_trim_toOnCalendar wellFormed]
  change (parseClock calendar.onClock >>= fun time =>
    Except.ok (CalendarExpr.mk calendar.weekdays time.1 time.2.1 time.2.2)) = .ok calendar
  rw [parseClock_onClock wellFormed]
  rfl

/-- The calendars that texts are read as are the well-formed ones. -/
theorem exists_parseCalendar_iff (calendar : CalendarExpr) :
    (∃ expr, parseCalendar expr = .ok calendar) ↔ calendar.WellFormed :=
  ⟨fun ⟨_, accepted⟩ => wellFormed_of_parseCalendar accepted,
    fun wellFormed => ⟨_, parseCalendar_toOnCalendar wellFormed⟩⟩

/-- The instants that a calendar denotes, in an offset. -/
def CalendarExpr.occurrences (calendar : CalendarExpr) (range : DateRange) (offset : Int) :
    Set Nat :=
  {instant | calendar.Occurs range offset instant}

/-- What was read is read again from the text that is written for it, with its occurrences. -/
theorem text_round_trip (expr : List Char) (calendar : CalendarExpr)
    (accepted : parseCalendar expr = .ok calendar) :
    parseCalendar calendar.toOnCalendar = .ok calendar ∧
      ∃ again, parseCalendar calendar.toOnCalendar = .ok again ∧
        ∀ range offset, again.occurrences range offset = calendar.occurrences range offset := by
  have back := parseCalendar_toOnCalendar (wellFormed_of_parseCalendar accepted)
  exact ⟨back, calendar, back, fun _ _ => rfl⟩

theorem weekend_round_trip :
    parseCalendar "Fri..Mon *-*-* 09:00".toList = .ok ⟨[0, 4, 5, 6], 9, 0, 0⟩ ∧
      parseCalendar "Mon,Fri,Sat,Sun *-*-* 09:00:00".toList = .ok ⟨[0, 4, 5, 6], 9, 0, 0⟩ := by
  have accepted : parseCalendar "Fri..Mon *-*-* 09:00".toList = .ok ⟨[0, 4, 5, 6], 9, 0, 0⟩ := by
    decide
  exact ⟨accepted, (text_round_trip _ _ accepted).1⟩

end Yggterm.Automations
