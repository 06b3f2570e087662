import Mathlib.Algebra.Ring.Nat
import Mathlib.Data.List.Nodup
import Yggterm.Library.Runs

/-!
# Automation bookkeeping

`automation.rs`: the run list that each automation keeps, the pass that stamps runs whose
session is gone and names those past their deadline, and the notices a user dismisses.
Of an automation's fields only those that the bookkeeping reads or writes are kept.
-/

namespace Yggterm.Automations

inductive RunOutcome where
  | ran
  | skippedOutOfGrace
  | skippedOffCadence
  | reusedLiveSession
  | spawnFailed
  deriving DecidableEq

inductive CloseReason where
  | ephemeralIdleTtl
  | ephemeralOwnerGone
  | user
  | never
  deriving DecidableEq

inductive EphemeralReapReason where
  | idleTtl
  | ownerGone
  deriving DecidableEq

structure AutomationRun where
  runId : String
  dueAtMs : Nat
  startedAtMs : Nat
  outcome : RunOutcome
  sessionPath : Option String
  closedAtMs : Option Nat
  closeReason : CloseReason
  error : Option String
  deriving DecidableEq

/-- The run still holds an open session. -/
def AutomationRun.isOpen (run : AutomationRun) : Bool :=
  run.sessionPath.isSome && run.closedAtMs.isNone

structure Automation where
  id : String
  deadlineSecs : Nat
  lastRunAtMs : Option Nat
  runs : List AutomationRun
  deriving DecidableEq

/-- `RUN_HISTORY_LIMIT`. -/
def runHistoryLimit : Nat := 20

/-- The newest run goes last, and the oldest ones beyond the limit are dropped. -/
def Automation.recordRun (automation : Automation) (run : AutomationRun) : Automation :=
  let runs := automation.runs ++ [run]
  { automation with
    lastRunAtMs := some run.startedAtMs
    runs := if runs.length > runHistoryLimit then runs.drop (runs.length - runHistoryLimit)
      else runs }

/-- The runs that recording one more drops. -/
def Automation.droppedBy (automation : Automation) (run : AutomationRun) : List AutomationRun :=
  (automation.runs ++ [run]).take ((automation.runs ++ [run]).length - runHistoryLimit)

/-- Multiplication of `u64` that stays at the largest value. -/
def saturatingMul (first second : Nat) : Nat := min (first * second) (2 ^ 64 - 1)

def runHasPassedDeadline (run : AutomationRun) (deadlineSecs nowMs : Nat) : Bool :=
  run.isOpen && decide (nowMs - run.startedAtMs > saturatingMul deadlineSecs 1000)

inductive NoticeKind where
  | runOverdue
  | spawnFailed
  deriving DecidableEq

structure AutomationNotice where
  runId : String
  automationId : String
  kind : NoticeKind
  raisedAtMs : Nat
  message : String
  sessionPath : Option String
  deriving DecidableEq

/-- What a notice is about. -/
def AutomationNotice.subject (notice : AutomationNotice) : String × NoticeKind :=
  (notice.runId, notice.kind)

structure AutomationStore where
  automations : List Automation
  notices : List AutomationNotice
  deriving DecidableEq

structure BookkeepingOutcome where
  closed : List (String × CloseReason)
  raised : List String
  deriving DecidableEq

/-- Record a run of the automation with this id. -/
def AutomationStore.recordRun (store : AutomationStore) (id : String) (run : AutomationRun) :
    AutomationStore :=
  { store with
    automations := store.automations.modify
      (store.automations.findIdx (fun automation => automation.id = id)) (·.recordRun run) }

/-- Raise a notice, or leave the existing one about the same run and kind alone. -/
def AutomationStore.raiseNotice (store : AutomationStore) (notice : AutomationNotice) :
    AutomationStore × Bool :=
  if store.notices.any (fun existing =>
      existing.runId = notice.runId && existing.kind = notice.kind) then (store, false)
  else ({ store with notices := store.notices ++ [notice] }, true)

def AutomationStore.dismissNotice (store : AutomationStore) (runId : String) : AutomationStore :=
  { store with notices := store.notices.filter (fun notice => notice.runId ≠ runId) }

/-- The last loop of the pass: raise the overdue notices, and name the runs of those that
were new. -/
def AutomationStore.raiseAll (store : AutomationStore) :
    List AutomationNotice → AutomationStore × List String
  | [] => (store, [])
  | notice :: rest =>
      let (raised, isNew) := store.raiseNotice notice
      let (final, runIds) := raised.raiseAll rest
      (final, if isNew then notice.runId :: runIds else runIds)

section Pass

variable (liveSessions : List String) (reaped : List (String × EphemeralReapReason)) (nowMs : Nat)

/-- Why a session that is gone was closed. -/
def closeReasonOf (sessionPath : String) : CloseReason :=
  match reaped.find? (fun entry => entry.1 = sessionPath) with
  | some (_, .idleTtl) => .ephemeralIdleTtl
  | some (_, .ownerGone) => .ephemeralOwnerGone
  | none => .user

def overdueNotice (automation : Automation) (run : AutomationRun) (sessionPath : String) :
    AutomationNotice where
  runId := run.runId
  automationId := automation.id
  kind := .runOverdue
  raisedAtMs := nowMs
  message := s!"still running {(nowMs - run.startedAtMs) / 1000}s after it started, past a " ++
    s!"{automation.deadlineSecs}s budget — left alone deliberately; close it yourself if it is stuck"
  sessionPath := some sessionPath

/-- One run of the pass: the run as it is left, the close it was stamped with and the
overdue notice to raise. -/
def visitRun (automation : Automation) (run : AutomationRun) :
    AutomationRun × Option (String × CloseReason) × Option AutomationNotice :=
  if run.isOpen then
    match run.sessionPath with
    | none => (run, none, none)
    | some sessionPath =>
        if sessionPath ∉ liveSessions then
          let reason := closeReasonOf reaped sessionPath
          ({ run with closedAtMs := some nowMs, closeReason := reason }, some (run.runId, reason),
            none)
        else if runHasPassedDeadline run automation.deadlineSecs nowMs then
          (run, none, some (overdueNotice nowMs automation run sessionPath))
        else (run, none, none)
  else (run, none, none)

/-- Reconcile the store against the sessions that are live now. -/
def bookkeepingPass (store : AutomationStore) : AutomationStore × BookkeepingOutcome :=
  let visited := store.automations.map (fun automation =>
    (automation, automation.runs.map (visitRun liveSessions reaped nowMs automation)))
  let automations := visited.map (fun visit => { visit.1 with runs := visit.2.map (·.1) })
  let closed := visited.flatMap (fun visit => visit.2.filterMap (·.2.1))
  let overdue := visited.flatMap (fun visit => visit.2.filterMap (·.2.2))
  let (final, raised) := ({ store with automations } : AutomationStore).raiseAll overdue
  (final, ⟨closed, raised⟩)

end Pass

/-! ## What a pass raises -/

theorem raiseNotice_of_standing {store : AutomationStore} {notice : AutomationNotice}
    (standing : notice.subject ∈ store.notices.map AutomationNotice.subject) :
    store.raiseNotice notice = (store, false) := by
  obtain ⟨existing, member, same⟩ := List.mem_map.mp standing
  rw [AutomationStore.raiseNotice, if_pos]
  apply List.any_eq_true.mpr
  refine ⟨existing, member, ?_⟩
  simpa [AutomationNotice.subject] using same

theorem raiseNotice_of_not_standing {store : AutomationStore} {notice : AutomationNotice}
    (fresh : notice.subject ∉ store.notices.map AutomationNotice.subject) :
    store.raiseNotice notice = ({ store with notices := store.notices ++ [notice] }, true) := by
  rw [AutomationStore.raiseNotice, if_neg]
  intro standing
  obtain ⟨existing, member, same⟩ := List.any_eq_true.mp standing
  apply fresh
  apply List.mem_map.mpr
  refine ⟨existing, member, ?_⟩
  simpa [AutomationNotice.subject] using same

/-- The runs raised are named once each; they are those of the given notices about which
nothing stood yet, and now something does. -/
theorem raiseAll_spec (store : AutomationStore) (overdue : List AutomationNotice)
    (kind : ∀ notice ∈ overdue, notice.kind = .runOverdue) :
    let raised := (store.raiseAll overdue).2
    raised.Nodup ∧
      (∀ runId, runId ∈ raised ↔ runId ∈ overdue.map AutomationNotice.runId ∧
        (runId, NoticeKind.runOverdue) ∉ store.notices.map AutomationNotice.subject) ∧
      ∀ subject, subject ∈ (store.raiseAll overdue).1.notices.map AutomationNotice.subject ↔
        subject ∈ store.notices.map AutomationNotice.subject ∨
          subject ∈ raised.map (fun runId => (runId, .runOverdue)) := by
  induction overdue generalizing store with
  | nil => simp [AutomationStore.raiseAll]
  | cons notice rest inductionHypothesis =>
      have isSubject : notice.subject = (notice.runId, .runOverdue) := by
        rw [AutomationNotice.subject, kind notice (by simp)]
      have restKind : ∀ other ∈ rest, other.kind = .runOverdue :=
        fun other member => kind other (by simp [member])
      by_cases standing : notice.subject ∈ store.notices.map AutomationNotice.subject
      · obtain ⟨nodup, raisedIff, noticesIff⟩ := inductionHypothesis store restKind
        simp only [AutomationStore.raiseAll, raiseNotice_of_standing standing, Bool.false_eq_true,
          if_false]
        refine ⟨nodup, fun runId => (raisedIff runId).trans ?_, noticesIff⟩
        apply and_congr_left
        intro fresh
        rw [List.map_cons, List.mem_cons]
        constructor
        · exact .inr
        · rintro (rfl | later)
          · exact absurd (isSubject ▸ standing) fresh
          · exact later
      · obtain ⟨nodup, raisedIff, noticesIff⟩ :=
          inductionHypothesis { store with notices := store.notices ++ [notice] } restKind
        simp only [List.map_append, List.map_singleton, isSubject, List.mem_append,
          List.mem_singleton, Prod.mk.injEq, and_true, not_or] at raisedIff noticesIff
        rw [isSubject] at standing
        simp only [AutomationStore.raiseAll, raiseNotice_of_not_standing (isSubject ▸ standing),
          if_true]
        refine ⟨List.nodup_cons.mpr ⟨fun again => ((raisedIff _).mp again).2.2 rfl, nodup⟩,
          fun runId => ?_, fun subject => ?_⟩
        · rw [List.mem_cons, raisedIff, List.map_cons, List.mem_cons]
          constructor
          · rintro (rfl | ⟨later, fresh, _⟩)
            · exact ⟨.inl rfl, standing⟩
            · exact ⟨.inr later, fresh⟩
          · rintro ⟨rfl | later, fresh⟩
            · exact .inl rfl
            · by_cases same : runId = notice.runId
              · exact .inl same
              · exact .inr ⟨later, fresh, same⟩
        · rw [noticesIff, List.map_cons, List.mem_cons, or_assoc]

/-- The pass finds the run open in a live session and past its automation's deadline. -/
def Overdue (liveSessions : List String) (nowMs : Nat) (store : AutomationStore)
    (runId : String) : Prop :=
  ∃ automation ∈ store.automations, ∃ run ∈ automation.runs, run.runId = runId ∧
    (∃ sessionPath, run.sessionPath = some sessionPath ∧ sessionPath ∈ liveSessions) ∧
    runHasPassedDeadline run automation.deadlineSecs nowMs = true

theorem visitRun_overdue_iff {liveSessions : List String}
    {reaped : List (String × EphemeralReapReason)} {nowMs : Nat} {automation : Automation}
    {run : AutomationRun} {notice : AutomationNotice} :
    (visitRun liveSessions reaped nowMs automation run).2.2 = some notice ↔
      ∃ sessionPath, run.sessionPath = some sessionPath ∧ sessionPath ∈ liveSessions ∧
        runHasPassedDeadline run automation.deadlineSecs nowMs = true ∧
        overdueNotice nowMs automation run sessionPath = notice := by
  rw [visitRun]
  by_cases isOpen : run.isOpen = true
  · rw [if_pos isOpen]
    cases run.sessionPath with
    | none => simp
    | some sessionPath =>
        by_cases live : sessionPath ∈ liveSessions
        · by_cases late : runHasPassedDeadline run automation.deadlineSecs nowMs = true
          · simp [live, late]
          · simp [live, late]
        · simp [live]
  · rw [if_neg isOpen]
    have notLate : runHasPassedDeadline run automation.deadlineSecs nowMs = false := by
      simp [runHasPassedDeadline, isOpen]
    simp [notLate]

/-- The passes' notices: each run that is newly raised is named once, they are the
overdue runs about which no notice stood, and after the pass one does. -/
theorem bookkeepingPass_spec (liveSessions : List String)
    (reaped : List (String × EphemeralReapReason)) (nowMs : Nat) (store : AutomationStore) :
    let passed := bookkeepingPass liveSessions reaped nowMs store
    passed.2.raised.Nodup ∧
      (∀ runId, runId ∈ passed.2.raised ↔ Overdue liveSessions nowMs store runId ∧
        (runId, NoticeKind.runOverdue) ∉ store.notices.map AutomationNotice.subject) ∧
      ∀ subject, subject ∈ passed.1.notices.map AutomationNotice.subject ↔
        subject ∈ store.notices.map AutomationNotice.subject ∨
          subject ∈ passed.2.raised.map (fun runId => (runId, .runOverdue)) := by
  let visited := store.automations.map (fun automation =>
    (automation, automation.runs.map (visitRun liveSessions reaped nowMs automation)))
  let overdue := visited.flatMap (fun visit => visit.2.filterMap (·.2.2))
  have overdueIff : ∀ notice, notice ∈ overdue ↔ ∃ automation ∈ store.automations,
      ∃ run ∈ automation.runs, ∃ sessionPath, run.sessionPath = some sessionPath ∧
        sessionPath ∈ liveSessions ∧
        runHasPassedDeadline run automation.deadlineSecs nowMs = true ∧
        overdueNotice nowMs automation run sessionPath = notice := by
    intro notice
    simp only [overdue, visited, List.mem_flatMap, List.mem_map, List.mem_filterMap,
      exists_exists_and_eq_and, visitRun_overdue_iff]
  obtain ⟨nodup, raisedIff, noticesIff⟩ := raiseAll_spec
    { store with
      automations := visited.map (fun visit => { visit.1 with runs := visit.2.map (·.1) }) }
    overdue (by
      intro notice member
      obtain ⟨_, _, _, _, _, _, _, _, rfl⟩ := (overdueIff notice).mp member
      rfl)
  refine ⟨nodup, fun runId => (raisedIff runId).trans (and_congr_left fun _ => ?_), noticesIff⟩
  constructor
  · intro member
    obtain ⟨notice, isOverdue, rfl⟩ := List.mem_map.mp member
    obtain ⟨automation, inStore, run, inRuns, sessionPath, isPath, live, late, rfl⟩ :=
      (overdueIff notice).mp isOverdue
    exact ⟨automation, inStore, run, inRuns, rfl, ⟨sessionPath, isPath, live⟩, late⟩
  · rintro ⟨automation, inStore, run, inRuns, rfl, ⟨sessionPath, isPath, live⟩, late⟩
    apply List.mem_map.mpr
    refine ⟨overdueNotice nowMs automation run sessionPath, ?_, rfl⟩
    exact (overdueIff _).mpr
      ⟨automation, inStore, run, inRuns, sessionPath, isPath, live, late, rfl⟩

end Yggterm.Automations
