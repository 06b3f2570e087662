import Yggterm.Automations.Bookkeeping

/-!
# Alarms over whole runs

Runs of the store under recordings, bookkeeping passes and dismissals.  The state keeps,
beside the store, every notice that was ever raised and every run that fell out of its
list; the store itself forgets both.
-/

namespace Yggterm.Automations

open Runs

inductive Action where
  | recordRun (automationId : String) (run : AutomationRun)
  | bookkeepingPass (liveSessions : List String) (reaped : List (String × EphemeralReapReason))
      (nowMs : Nat)
  | dismissNotice (runId : String)

structure Alarms where
  store : AutomationStore
  raised : List (String × NoticeKind)
  dropped : List AutomationRun

/-- Any automations, with no notice raised about them yet. -/
def Alarms.initial (automations : List Automation) : Alarms := ⟨⟨automations, []⟩, [], []⟩

/-- The runs that recording one more drops from the list of its automation. -/
def AutomationStore.droppedBy (store : AutomationStore) (automationId : String)
    (run : AutomationRun) : List AutomationRun :=
  match store.automations.find? (fun automation => automation.id = automationId) with
  | some automation => automation.droppedBy run
  | none => []

def alarmsStep (state : Alarms) : Action → Alarms
  | .recordRun automationId run =>
      { state with
        store := state.store.recordRun automationId run
        dropped := state.store.droppedBy automationId run ++ state.dropped }
  | .bookkeepingPass liveSessions reaped nowMs =>
      let passed := bookkeepingPass liveSessions reaped nowMs state.store
      { state with
        store := passed.1
        raised := passed.2.raised.map (fun runId => (runId, .runOverdue)) ++ state.raised }
  | .dismissNotice runId => { state with store := state.store.dismissNotice runId }

/-- No run has had two notices of one kind, and no run was dropped while it was open. -/
def Alarms.RaisesOnce (state : Alarms) : Prop :=
  state.raised.Nodup ∧ ∀ run ∈ state.dropped, run.isOpen = false

/-- A recording drops only runs that have ended, and a pass finds no run overdue whose
notice was raised before and does not stand any more. -/
def Alarms.Safe (state : Alarms) : Action → Prop
  | .recordRun automationId run =>
      ∀ dropped ∈ state.store.droppedBy automationId run, dropped.isOpen = false
  | .bookkeepingPass liveSessions _ nowMs =>
      ∀ runId, Overdue liveSessions nowMs state.store runId →
        (runId, NoticeKind.runOverdue) ∈ state.raised →
        (runId, NoticeKind.runOverdue) ∈ state.store.notices.map AutomationNotice.subject
  | .dismissNotice _ => True

/-- So far every alarm was raised once, and the standing notices are among those raised. -/
structure Alarms.Orderly (state : Alarms) : Prop where
  raisesOnce : state.RaisesOnce
  logged : ∀ notice ∈ state.store.notices, notice.subject ∈ state.raised

theorem Alarms.initial_orderly (automations : List Automation) :
    (Alarms.initial automations).Orderly where
  raisesOnce := by simp [initial, RaisesOnce]
  logged := by simp [initial]

theorem Alarms.orderly_step (state : Alarms) (action : Action) (orderly : state.Orderly)
    (safe : state.Safe action) : (alarmsStep state action).Orderly := by
  cases action with
  | recordRun automationId run =>
      refine ⟨⟨orderly.raisesOnce.1, fun dropped member => ?_⟩, orderly.logged⟩
      rcases List.mem_append.mp member with now | before
      · exact safe dropped now
      · exact orderly.raisesOnce.2 dropped before
  | bookkeepingPass liveSessions reaped nowMs =>
      obtain ⟨nodup, raisedIff, noticesIff⟩ :=
        bookkeepingPass_spec liveSessions reaped nowMs state.store
      refine ⟨⟨?_, orderly.raisesOnce.2⟩, fun notice member => ?_⟩
      · apply List.nodup_append.mpr
        refine ⟨?_, orderly.raisesOnce.1, ?_⟩
        · apply List.Nodup.map _ nodup
          intro first second same
          exact (Prod.mk.inj same).1
        · rintro subject new other old rfl
          obtain ⟨runId, isRaised, rfl⟩ := List.mem_map.mp new
          obtain ⟨overdue, fresh⟩ := (raisedIff runId).mp isRaised
          exact fresh (safe runId overdue old)
      · rcases (noticesIff notice.subject).mp (List.mem_map_of_mem member) with standing | new
        · obtain ⟨existing, inStore, same⟩ := List.mem_map.mp standing
          rw [← same]
          exact List.mem_append_right _ (orderly.logged existing inStore)
        · exact List.mem_append_left _ new
  | dismissNotice runId =>
      refine ⟨orderly.raisesOnce, fun notice member => ?_⟩
      exact orderly.logged notice (List.mem_filter.mp member).1

/-- A step that misses the condition drops an open run or raises a notice again. -/
theorem Alarms.breaks_step (state : Alarms) (action : Action) (missed : ¬ state.Safe action) :
    ¬ (alarmsStep state action).RaisesOnce := by
  rintro ⟨nodup, ended⟩
  apply missed
  cases action with
  | recordRun automationId run =>
      intro dropped member
      exact ended dropped (List.mem_append_left _ member)
  | bookkeepingPass liveSessions reaped nowMs =>
      intro runId overdue old
      apply Classical.byContradiction
      intro fresh
      have isRaised := ((bookkeepingPass_spec liveSessions reaped nowMs state.store).2.1 runId).mpr
        ⟨overdue, fresh⟩
      exact (List.nodup_append.mp nodup).2.2 _ (List.mem_map_of_mem isRaised) _ old rfl
  | dismissNotice runId => trivial

/-- Every alarm is raised once and no open run is dropped, along a whole run, exactly when
no recording drops an open run and no pass meets an overdue run whose notice is gone. -/
theorem raises_once_iff_safe (automations : List Automation) (actions : List Action) :
    Always alarmsStep Alarms.RaisesOnce (Alarms.initial automations) actions ↔
      Guarded alarmsStep Alarms.Safe (Alarms.initial automations) actions :=
  always_iff_guarded_of_breaks Alarms.orderly_step (fun _ orderly => orderly.raisesOnce)
    (fun state action _ => Alarms.breaks_step state action) (Alarms.initial_orderly automations)
    actions

/-- An automation with one run, open since its first second, and an hour for it. -/
def hourly : Automation where
  id := "infra"
  deadlineSecs := 3600
  lastRunAtMs := some 1000
  runs := [⟨"infra-1000", 1000, 1000, .ran, some "live/3", none, .never, none⟩]

/-- The user dismisses the notice of a run that stays open: the next pass raises it
again.  And twenty skipped runs later the open run is gone from the list. -/
theorem not_raises_once_of_dismissal :
    ¬ Always alarmsStep Alarms.RaisesOnce (Alarms.initial [hourly])
        [.bookkeepingPass ["live/3"] [] 3602000, .dismissNotice "infra-1000",
          .bookkeepingPass ["live/3"] [] 3662000] ∧
      ¬ Always alarmsStep Alarms.RaisesOnce (Alarms.initial [hourly])
        (List.replicate 20 (.recordRun "infra"
          ⟨"infra-2000", 2000, 9000, .skippedOutOfGrace, none, none, .never, none⟩)) := by
  constructor
  · intro always
    exact absurd always.2.2.2.1 (by decide)
  · intro always
    have ended := always.2.2.2.2.2.2.2.2.2.2.2.2.2.2.2.2.2.2.2.2.2
    exact absurd (ended _ (List.mem_singleton_self _)) (by decide)

end Yggterm.Automations
