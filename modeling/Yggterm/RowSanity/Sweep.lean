import Mathlib.Data.List.Nodup
import Yggterm.Library.Runs

/-!
# The row sweep

`row_sanity.rs`: what happens to each row of the session table in one round, and which
stage-one records are kept for the next.  Texts are lists of characters; the decimal
that `human_duration` prints of an hour or day count is a parameter.
-/

namespace Yggterm.RowSanity

/-- What a row is, as `session_tenancy` measured it. -/
inductive RowHygieneVerdict where
  | userRow
  | unmeasurable (reason : List Char)
  | occupied (tenantCount : Nat) (oldestTenantAgeSecs : Option Nat)
      (oldestTenantCommand : Option (List Char))
  | emptyPlate (idleSecs : Option Nat)
  deriving DecidableEq

/-- The fields of a row's report that the sweep reads. -/
structure RowTenantReport where
  sessionPath : List Char
  hygiene : Option RowHygieneVerdict
  deriving DecidableEq

inductive SweepAction where
  | keep
  | record
  | close
  deriving DecidableEq

structure RowSweepDecision where
  sessionPath : List Char
  action : SweepAction
  reason : List Char
  idleSecs : Option Nat
  deriving DecidableEq

/-- A row's stage-one record: when it was first seen clearable. -/
structure SweepRecord where
  sessionPath : List Char
  firstSeenClearableMs : Nat
  deriving DecidableEq

/-- `EMPTY_PLATE_MIN_IDLE_SECS`. -/
def emptyPlateMinIdleSecs : Nat := 1800

/-- `STAGE_TWO_GRACE_SECS`. -/
def stageTwoGraceSecs : Nat := 3600

section Decisions

-- `{:.1}` of the quotient of two numbers, as floating point prints it.
variable (oneDecimal : Nat → Nat → List Char)

def humanDuration (secs : Nat) : List Char :=
  if secs ≤ 89 then (Nat.repr secs).toList ++ "s".toList
  else if secs ≤ 5399 then (Nat.repr ((secs + 30) / 60)).toList ++ "m".toList
  else if secs ≤ 86399 then oneDecimal secs 3600 ++ "h".toList
  else oneDecimal secs 86400 ++ "d".toList

/-- Decide what happens to one row. -/
def decideRow (report : RowTenantReport) (record : Option SweepRecord) (nowMs : Nat)
    (degraded : Bool) : RowSweepDecision :=
  let keep := fun reason idle => (⟨report.sessionPath, .keep, reason, idle⟩ : RowSweepDecision)
  if degraded then
    keep "the measurement was degraded — nothing is swept this round".toList none
  else
    match report.hygiene with
    | none => keep "no verdict — an unclassified row is never swept".toList none
    | some .userRow => keep "yours — not this policy's business".toList none
    | some (.unmeasurable reason) =>
        keep ("cannot be judged from this host (".toList ++ reason ++ ")".toList) none
    | some (.occupied tenantCount oldestTenantAgeSecs _) =>
        let age := match oldestTenantAgeSecs with
          | some secs => ", oldest ".toList ++ humanDuration oneDecimal secs
          | none => []
        keep ("something is running in it (".toList ++ (Nat.repr tenantCount).toList ++
          " tenant(s)".toList ++ age ++ ")".toList) none
    | some (.emptyPlate none) =>
        keep "empty, but its idle clock is unknown — proof is absent".toList none
    | some (.emptyPlate (some idle)) =>
        if idle < emptyPlateMinIdleSecs then
          keep ("empty but only idle ".toList ++ humanDuration oneDecimal idle ++
            " — an agent between steps looks like this".toList) (some idle)
        else
          match record with
          | none =>
              ⟨report.sessionPath, .record,
                "empty and idle ".toList ++ humanDuration oneDecimal idle ++
                  " — recorded; closes after ".toList ++
                  humanDuration oneDecimal stageTwoGraceSecs ++ " if still empty".toList,
                some idle⟩
          | some record =>
              let heldMs := nowMs - record.firstSeenClearableMs
              if heldMs / 1000 ≥ stageTwoGraceSecs then
                ⟨report.sessionPath, .close,
                  "empty and idle ".toList ++ humanDuration oneDecimal idle ++
                    ", and still empty ".toList ++ humanDuration oneDecimal (heldMs / 1000) ++
                    " after it was recorded".toList,
                  some idle⟩
              else
                keep ("recorded ".toList ++ humanDuration oneDecimal (heldMs / 1000) ++
                  " ago — waiting out the ".toList ++
                  humanDuration oneDecimal stageTwoGraceSecs ++ " grace".toList) (some idle)

/-- The record kept under a path. -/
def recordOf (records : List SweepRecord) (path : List Char) : Option SweepRecord :=
  records.find? (fun record => record.sessionPath = path)

/-- The record a decision leaves for the next round. -/
def nextRecord (records : List SweepRecord) (nowMs : Nat) (decision : RowSweepDecision) :
    Option SweepRecord :=
  match decision.action with
  | .record => some ⟨decision.sessionPath, nowMs⟩
  | .close => none
  | .keep =>
      if "recorded ".toList.isPrefixOf decision.reason then
        recordOf records decision.sessionPath
      else none

/-- The whole table's decisions, and the records kept for the next round. -/
def planSweep (reports : List RowTenantReport) (records : List SweepRecord) (nowMs : Nat)
    (degraded : Bool) : List RowSweepDecision × List SweepRecord :=
  let decisions := reports.map (fun report =>
    decideRow oneDecimal report (recordOf records report.sessionPath) nowMs degraded)
  (decisions, decisions.filterMap (nextRecord records nowMs))

end Decisions

/-! ## What one decision says about its row -/

/-- An empty plate whose idle time is known and has reached the threshold. -/
def Clearable (hygiene : Option RowHygieneVerdict) : Prop :=
  ∃ idle, hygiene = some (.emptyPlate (some idle)) ∧ emptyPlateMinIdleSecs ≤ idle

/-- A decision is one of the two stages or the wait between them, each on a clearable
row of an undegraded round, or it keeps the row with a reason that records nothing. -/
theorem decideRow_cases (oneDecimal : Nat → Nat → List Char) (report : RowTenantReport)
    (record : Option SweepRecord) (nowMs : Nat) (degraded : Bool) :
    let decision := decideRow oneDecimal report record nowMs degraded
    decision.sessionPath = report.sessionPath ∧
      ((degraded = false ∧ Clearable report.hygiene ∧
          ((record = none ∧ decision.action = .record) ∨
            (∃ kept, record = some kept ∧
              stageTwoGraceSecs ≤ (nowMs - kept.firstSeenClearableMs) / 1000 ∧
              decision.action = .close) ∨
            decision.action = .keep)) ∨
        (decision.action = .keep ∧ "recorded ".toList.isPrefixOf decision.reason = false)) := by
  rcases report with ⟨path, hygiene⟩
  rcases degraded with _ | _
  · rcases hygiene with _ | _ | reason | ⟨count, age, command⟩ | _ | idle
    · exact ⟨rfl, .inr ⟨rfl, rfl⟩⟩
    · exact ⟨rfl, .inr ⟨rfl, rfl⟩⟩
    · exact ⟨rfl, .inr ⟨rfl, rfl⟩⟩
    · exact ⟨rfl, .inr ⟨rfl, rfl⟩⟩
    · exact ⟨rfl, .inr ⟨rfl, rfl⟩⟩
    · by_cases short : idle < emptyPlateMinIdleSecs
      · simp only [decideRow, short, Bool.false_eq_true, if_false, if_true]
        exact ⟨trivial, .inr ⟨trivial, rfl⟩⟩
      · have clearable : Clearable (some (.emptyPlate (some idle))) :=
          ⟨idle, rfl, Nat.le_of_not_lt short⟩
        rcases record with _ | kept
        · simp only [decideRow, short, Bool.false_eq_true, if_false]
          exact ⟨trivial, .inl ⟨trivial, clearable, .inl ⟨trivial, trivial⟩⟩⟩
        · by_cases due : (nowMs - kept.firstSeenClearableMs) / 1000 ≥ stageTwoGraceSecs
          · simp only [decideRow, short, due, Bool.false_eq_true, if_false, if_true]
            exact ⟨trivial, .inl ⟨trivial, clearable, .inr (.inl ⟨kept, rfl, due, trivial⟩)⟩⟩
          · simp only [decideRow, short, due, Bool.false_eq_true, if_false]
            exact ⟨trivial, .inl ⟨trivial, clearable, .inr (.inr trivial)⟩⟩
  · exact ⟨rfl, .inr ⟨rfl, rfl⟩⟩

/-! ## A row is closed only after a full watch

Rounds of the sweep, each starting from the records the one before it kept.  A record
is a sighting in the sense of `Watches`: a round carries one only for a row it
found clearable, so a closed row has been clearable since its record was made. -/

/-- What one round of the sweep is given. -/
structure Round where
  reports : List RowTenantReport
  nowMs : Nat
  degraded : Bool

/-- No two reports of the round are about one row. -/
def Round.Distinct (round : Round) : Prop :=
  (round.reports.map RowTenantReport.sessionPath).Nodup

instance (round : Round) : Decidable round.Distinct := List.nodupDecidable _

/-- The round reported the row, with no degraded measurement, and found it clearable. -/
def Round.SeesClearable (round : Round) (path : List Char) : Prop :=
  round.degraded = false ∧ (∃ report ∈ round.reports, report.sessionPath = path) ∧
    ∀ report ∈ round.reports, report.sessionPath = path → Clearable report.hygiene

section Rounds

variable (oneDecimal : Nat → Nat → List Char)

def Round.plan (records : List SweepRecord) (round : Round) :
    List RowSweepDecision × List SweepRecord :=
  planSweep oneDecimal round.reports records round.nowMs round.degraded

/-- The records kept after some rounds, the first of which starts with none. -/
def recordsAfter (rounds : List Round) : List SweepRecord :=
  Runs.run (fun records round => (round.plan oneDecimal records).2) [] rounds

/-- The round gives the row this action. -/
def Round.Decides (records : List SweepRecord) (round : Round) (path : List Char)
    (action : SweepAction) : Prop :=
  ∃ decision ∈ (round.plan oneDecimal records).1,
    decision.sessionPath = path ∧ decision.action = action

instance (records : List SweepRecord) (round : Round) (path : List Char) (action : SweepAction) :
    Decidable (round.Decides oneDecimal records path action) :=
  inferInstanceAs (Decidable (∃ decision ∈ _, _))

end Rounds

/-! ### One round -/

/-- The record kept for the row is of this time. -/
def Recorded (records : List SweepRecord) (path : List Char) (since : Nat) : Prop :=
  ∃ record ∈ records, record.sessionPath = path ∧ record.firstSeenClearableMs = since

theorem recorded_of_recordOf {records : List SweepRecord} {path : List Char}
    {record : SweepRecord} (found : recordOf records path = some record) :
    record.sessionPath = path ∧ Recorded records path record.firstSeenClearableMs := by
  have isPath : record.sessionPath = path := by simpa using List.find?_some found
  exact ⟨isPath, record, List.mem_of_find?_eq_some found, isPath, rfl⟩

/-- With one report to a row, a clearable report makes the round see the row clearable. -/
theorem Round.seesClearable_of_report {round : Round} (distinct : round.Distinct)
    (undegraded : round.degraded = false) {report : RowTenantReport}
    (member : report ∈ round.reports) (clearable : Clearable report.hygiene) :
    round.SeesClearable report.sessionPath := by
  refine ⟨undegraded, ⟨report, member, rfl⟩, ?_⟩
  intro other otherMember samePath
  rw [List.inj_on_of_nodup_map distinct otherMember member samePath]
  exact clearable

variable {oneDecimal : Nat → Nat → List Char}

theorem Round.mem_plan_iff {records : List SweepRecord} {round : Round}
    {decision : RowSweepDecision} :
    decision ∈ (round.plan oneDecimal records).1 ↔
      ∃ report ∈ round.reports, decideRow oneDecimal report
        (recordOf records report.sessionPath) round.nowMs round.degraded = decision :=
  List.mem_map

/-- A round keeps a record only of a row it saw clearable: an old record as it was, or
one of its own time. -/
theorem Round.plan_renews {round : Round} (distinct : round.Distinct) :
    Watches.Renews (fun records round => (Round.plan oneDecimal records round).2) Round.nowMs
      Recorded (fun records round path => round.Decides oneDecimal records path .record)
      Round.SeesClearable round := by
  rintro records path since ⟨record, kept, isPath, isSince⟩
  obtain ⟨decision, decided, isNext⟩ := List.mem_filterMap.mp kept
  obtain ⟨report, member, isDecision⟩ := Round.mem_plan_iff.mp decided
  obtain ⟨reportPath, ⟨undegraded, clearable, stage⟩ | ⟨isKeep, unrecorded⟩⟩ :=
    decideRow_cases oneDecimal report (recordOf records report.sessionPath) round.nowMs
      round.degraded
  · rw [isDecision] at reportPath stage
    have seen := round.seesClearable_of_report distinct undegraded member clearable
    rw [← reportPath] at seen
    rcases stage with ⟨_, isRecord⟩ | ⟨_, _, _, isClose⟩ | isKeep
    · simp only [nextRecord, isRecord, Option.some.injEq] at isNext
      subst isNext
      subst isPath
      exact ⟨seen, .inr ⟨⟨decision, decided, rfl, isRecord⟩, isSince.symm⟩⟩
    · simp [nextRecord, isClose] at isNext
    · simp only [nextRecord, isKeep] at isNext
      split at isNext
      · obtain ⟨recordPath, recorded⟩ := recorded_of_recordOf isNext
        rw [← recordPath, isPath] at seen recorded
        rw [isSince] at recorded
        exact ⟨seen, .inl recorded⟩
      · cases isNext
  · rw [isDecision] at isKeep unrecorded
    simp only [nextRecord, isKeep, unrecorded, Bool.false_eq_true, if_false] at isNext
    cases isNext

/-- A round closes only a row it sees clearable and that a standing record names. -/
theorem Round.seesClearable_of_decides_close {records : List SweepRecord} {round : Round}
    (distinct : round.Distinct) {path : List Char}
    (closes : round.Decides oneDecimal records path .close) :
    round.SeesClearable path ∧ ∃ since, Recorded records path since ∧
      since + stageTwoGraceSecs * 1000 ≤ round.nowMs := by
  obtain ⟨decision, decided, isPath, isClose⟩ := closes
  obtain ⟨report, member, isDecision⟩ := Round.mem_plan_iff.mp decided
  obtain ⟨reportPath, ⟨undegraded, clearable, stage⟩ | ⟨isKeep, _⟩⟩ :=
    decideRow_cases oneDecimal report (recordOf records report.sessionPath) round.nowMs
      round.degraded
  · rw [isDecision, isPath] at reportPath
    rw [isDecision, isClose] at stage
    have seen := round.seesClearable_of_report distinct undegraded member clearable
    rw [← reportPath] at seen stage
    rcases stage with ⟨_, isRecord⟩ | ⟨kept, found, held, _⟩ | isKeep
    · cases isRecord
    · refine ⟨seen, kept.firstSeenClearableMs, (recorded_of_recordOf found).2, ?_⟩
      rw [stageTwoGraceSecs] at held ⊢
      omega
    · cases isKeep
  · rw [isDecision, isClose] at isKeep
    cases isKeep

/-! ### Whole runs -/

/-- A row is closed only if an earlier round, at least the grace before, recorded it and
every round from that one to the closing one saw it clearable.  A row the user made, an
unmeasurable one, an occupied one or one with an unknown idle time is never closed. -/
theorem close_only_after_watch (oneDecimal : Nat → Nat → List Char) (rounds : List Round)
    (round : Round) (distinct : ∀ each ∈ rounds ++ [round], each.Distinct) :
    (∀ path, round.Decides oneDecimal (recordsAfter oneDecimal rounds) path .close →
      ∃ before first after, rounds = before ++ first :: after ∧
        first.nowMs + stageTwoGraceSecs * 1000 ≤ round.nowMs ∧
        first.Decides oneDecimal (recordsAfter oneDecimal before) path .record ∧
        ∀ each ∈ first :: after ++ [round], each.SeesClearable path) ∧
    ∀ report ∈ round.reports,
      (report.hygiene = some .userRow ∨
        (∃ reason, report.hygiene = some (.unmeasurable reason)) ∨
        (∃ count age command, report.hygiene = some (.occupied count age command)) ∨
        report.hygiene = some (.emptyPlate none)) →
      ¬ round.Decides oneDecimal (recordsAfter oneDecimal rounds) report.sessionPath .close := by
  constructor
  · intro path closes
    obtain ⟨seen, since, recorded, due⟩ :=
      Round.seesClearable_of_decides_close (distinct round (by simp)) closes
    obtain ⟨before, first, after, isRounds, isTime, begins, watched⟩ :=
      Watches.exists_begins_of_sighted
        (fun path since => by rintro ⟨record, member, _⟩; cases member)
        (fun each member => Round.plan_renews (distinct each (by simp [member]))) recorded
    refine ⟨before, first, after, isRounds, isTime ▸ due, begins, ?_⟩
    intro each member
    rcases List.mem_append.mp member with earlier | last
    · exact watched each earlier
    · rw [List.mem_singleton.mp last]
      exact seen
  · intro report member unclearable closes
    obtain ⟨⟨_, _, clearable⟩, _⟩ :=
      Round.seesClearable_of_decides_close (distinct round (by simp)) closes
    obtain ⟨idle, isPlate, _⟩ := clearable report member rfl
    rw [isPlate] at unclearable
    simp at unclearable

/-- A round that finds one row, an empty plate idle for half an hour. -/
def idlePlateAt (nowMs : Nat) : Round :=
  ⟨[⟨"a".toList, some (.emptyPlate (some 1800))⟩], nowMs, false⟩

/-- A row recorded at its first sight, kept waiting in between, and closed an hour on. -/
theorem close_only_after_watch_of_one_hour :
    (idlePlateAt 3600000).Decides (fun _ _ => [])
        (recordsAfter (fun _ _ => []) [idlePlateAt 0, idlePlateAt 1800000]) "a".toList .close ∧
      ∃ before first after, [idlePlateAt 0, idlePlateAt 1800000] = before ++ first :: after ∧
        first.nowMs + stageTwoGraceSecs * 1000 ≤ (idlePlateAt 3600000).nowMs ∧
        first.Decides (fun _ _ => []) (recordsAfter (fun _ _ => []) before) "a".toList .record ∧
        ∀ each ∈ first :: after ++ [idlePlateAt 3600000], each.SeesClearable "a".toList := by
  have closes : (idlePlateAt 3600000).Decides (fun _ _ => [])
      (recordsAfter (fun _ _ => []) [idlePlateAt 0, idlePlateAt 1800000]) "a".toList .close := by
    decide
  exact ⟨closes, (close_only_after_watch (fun _ _ => []) _ _ (by decide)).1 _ closes⟩

end Yggterm.RowSanity
