import Mathlib.Data.Nat.Basic
import Mathlib.Order.Basic
import Yggterm.AgentInput.Lanes

/-!
# The human wins

A gesture that was counted stops every agent on its surface until a check of the surface has
answered for it: behind the gesture, nothing lands but what was past its check when the gesture
came.
-/

namespace Yggterm.AgentInput

open Runs

/-- An action of the run landed on the surface. -/
def Event.injects (nativeId number : Nat) : Event → Bool
  | .inject native other _ _ => native = nativeId && other = number
  | _ => false

/-- What a check has to say when it is done. -/
def Event.Verdict : Event → Prop
  | .refused _ | .admitted _ _ | .preempt _ | .reset _ => True
  | _ => False

namespace Shell

variable {shell : Shell} {nativeId : Nat}

/-- A gesture on the surface now would be counted as the human's. -/
def Counts (shell : Shell) (nativeId : Nat) : Prop :=
  nativeId ∈ shell.live ∧ (shell.seats nativeId).fresh shell.clock = []

instance (shell : Shell) (nativeId : Nat) : Decidable (shell.Counts nativeId) :=
  inferInstanceAs (Decidable (_ ∧ _))

/-- The run's action is past its check on this surface. -/
def landing (nativeId : Nat) : Option (Option Run) → Bool
  | some (some run) => run.cleared && run.handle.nativeId = nativeId
  | _ => false

/-- How many actions of the run can still land on the surface without another check. -/
def ready (shell : Shell) (nativeId number : Nat) : Nat :=
  if nativeId ∈ shell.live ∧ landing nativeId shell.runs[number]? = true then 1 else 0

/-- What the shell may do while a counted gesture waits on the surface: it takes nothing back, and
no run gets past a check. -/
structure Yields (nativeId : Nat) (before after : Shell) (events : List Event) : Prop where
  history : after.history = before.history ++ events
  known : before.nextId ≤ after.nextId
  live : nativeId ∈ after.live → nativeId ∈ before.live
  held : nativeId ∈ after.live → (before.seats nativeId).count ≤ (after.seats nativeId).count
  spare : ∀ number,
    events.countP (Event.injects nativeId number) + after.ready nativeId number ≤
      before.ready nativeId number

theorem ready_le {before after : Shell} {number : Nat}
    (live : nativeId ∈ after.live → nativeId ∈ before.live)
    (runs : nativeId ∈ after.live → landing nativeId after.runs[number]? = true →
      landing nativeId before.runs[number]? = true) :
    after.ready nativeId number ≤ before.ready nativeId number := by
  unfold ready
  by_cases lands : nativeId ∈ after.live ∧ landing nativeId after.runs[number]? = true
  · rw [if_pos lands, if_pos ⟨live lands.1, runs lands.1 lands.2⟩]
  · rw [if_neg lands]
    exact Nat.zero_le _

/-- A step that injects nothing. -/
theorem Yields.silent {before after : Shell} {events : List Event}
    (history : after.history = before.history ++ events) (known : before.nextId ≤ after.nextId)
    (live : nativeId ∈ after.live → nativeId ∈ before.live)
    (held : nativeId ∈ after.live → (before.seats nativeId).count ≤ (after.seats nativeId).count)
    (quiet : ∀ number : Nat, events.countP (Event.injects nativeId number) = 0)
    (runs : ∀ number : Nat, nativeId ∈ after.live → landing nativeId after.runs[number]? = true →
      landing nativeId before.runs[number]? = true) :
    Yields nativeId before after events where
  history := history
  known := known
  live := live
  held := held
  spare number := by
    rw [quiet, Nat.zero_add]
    exact ready_le live (runs number)

theorem Yields.rfl : Yields nativeId shell shell [] :=
  .silent (List.append_nil _).symm (Nat.le_refl _) id (fun _ => Nat.le_refl _) (fun _ => by simp)
    fun _ _ lands => lands

theorem landing_set {runs : List (Option Run)} {number other : Nat} {run : Option Run}
    (lands : landing nativeId (runs.set number run)[other]? = true) :
    landing nativeId (some run) = true ∨ landing nativeId runs[other]? = true := by
  rw [List.getElem?_set] at lands
  split at lands
  · split at lands
    · exact .inl lands
    · exact .inr (by simp_all [landing])
  · exact .inr lands

theorem landing_next (run : Run) (ok : Bool) : landing nativeId (some (run.next ok)) = false := by
  unfold Run.next
  split
  · rfl
  · split
    · rfl
    · rfl

theorem yields_perform {number : Nat} {run : Run} (slot : shell.runs[number]? = some (some run))
    (cleared : run.cleared = true) (events : Nat) (ok : Bool) :
    ∃ log, Yields nativeId shell (shell.perform number run events ok) log := by
  unfold perform
  split
  · rename_i isLive
    refine ⟨[.inject run.handle.nativeId number shell.clock events], rfl, Nat.le_refl _, id, ?_, ?_⟩
    · intro _
      simp only [log, setSeat, Function.update_apply]
      split
      · rename_i same
        subst same
        exact Nat.le_refl _
      · exact Nat.le_refl _
    · intro other
      by_cases same : run.handle.nativeId = nativeId ∧ number = other
      · obtain ⟨isSurface, rfl⟩ := same
        have before : shell.ready nativeId number = 1 := by
          simp [ready, landing, slot, cleared, isSurface, isSurface ▸ isLive]
        have spent : landing nativeId (shell.runs.set number (run.next ok))[number]? = false := by
          rw [List.getElem?_set_self (List.getElem?_eq_some_iff.mp slot).1]
          exact landing_next run ok
        rw [before]
        simp [ready, log, setSeat, spent, Event.injects, isSurface]
      · have quiet : Event.injects nativeId other
            (.inject run.handle.nativeId number shell.clock events) = false := by
          simpa [Event.injects] using same
        rw [List.countP_singleton, quiet]
        refine (Nat.zero_add _).trans_le (ready_le id ?_)
        intro _ lands
        have either := landing_set lands
        rw [landing_next, Bool.false_eq_true, false_or] at either
        exact either
  · refine ⟨[], .silent (List.append_nil _).symm (Nat.le_refl _) id (fun _ => Nat.le_refl _)
      (fun _ => by simp) ?_⟩
    intro other _ lands
    have either := landing_set lands
    rw [landing_next, Bool.false_eq_true, false_or] at either
    exact either

/-- The answer of a check that found a gesture on the surface. -/
def Answers (nativeId : Nat) (before after : Shell) : Prop :=
  ∃ events, after.history = before.history ++ events ∧ .refused nativeId ∈ events

theorem answers_openLane (request : Request) (holdsWriteLock : Bool) (handle : Handle)
    (waits : 0 < (shell.seats handle.nativeId).count) :
    Answers handle.nativeId shell (shell.openLane request holdsWriteLock handle) := by
  have gated := webDoGate_eq shell.lanes (keyOf request.session handle) request.batch
    (shell.seats handle.nativeId).count handle.everRevealed request.newBatch
  simp only [Answers, openLane, takeSeatInput]
  rw [show handle.generation = (keyOf request.session handle).generation from by rfl, gated,
    if_pos waits]
  cases handle.everRevealed with
  | false => exact ⟨_, List.append_assoc _ _ _, by simp⟩
  | true =>
      simp only [if_true, if_pos waits]
      exact ⟨_, List.append_assoc _ _ _, by simp⟩

theorem batchStep_of_waits {index seatInputCount : Nat} (later : 0 < index)
    (waits : 0 < seatInputCount) (revealed : Bool) : batchStep index seatInputCount revealed =
      if revealed = false then .abortSeatInputOnUnrevealedSurface else .abortPreempted := by
  simp [batchStep, Nat.pos_iff_ne_zero.mp later, Nat.pos_iff_ne_zero.mp waits]

theorem answers_advance (number : Nat) (run : Run) (unchecked : run.cleared = false)
    (waits : 0 < (shell.seats run.handle.nativeId).count) :
    Answers run.handle.nativeId shell (shell.advance number run) := by
  have stops := batchStep_of_waits (run.opened unchecked) waits run.handle.everRevealed
  simp only [Answers, advance, takeSeatInput, stops]
  cases run.handle.everRevealed with
  | false => exact ⟨_, List.append_assoc _ _ _, by simp⟩
  | true => exact ⟨_, List.append_assoc _ _ _, by simp⟩

/-- A check of the surface: what the engine counted for it is gone, and the rest of the engine is as
it was. -/
structure Judged (nativeId : Nat) (before after : Shell) : Prop where
  history : ∃ verdicts, (∀ event ∈ verdicts, event.Verdict) ∧ after.history =
    before.history ++ .check nativeId (before.seats nativeId).count :: verdicts
  seats : after.seats = Function.update before.seats nativeId .none
  clock : after.clock = before.clock
  known : after.nextId = before.nextId
  live : after.live = before.live

theorem judged_of_check (shell : Shell) (nativeId : Nat) (lanes : Lanes)
    (runs : List (Option Run)) :
    Judged nativeId shell
      { (shell.takeSeatInput nativeId).2 with lanes := lanes, runs := runs } where
  history := ⟨[], by simp, by rfl⟩
  seats := by rfl
  clock := by rfl
  known := by rfl
  live := by rfl

theorem Judged.log {before after : Shell} (judged : Judged nativeId before after)
    {verdicts : List Event} (isVerdict : ∀ event ∈ verdicts, event.Verdict) :
    Judged nativeId before (after.log verdicts) where
  history := by
    obtain ⟨earlier, areVerdicts, isHistory⟩ := judged.history
    refine ⟨earlier ++ verdicts, ?_, ?_⟩
    · intro event member
      exact (List.mem_append.mp member).elim (areVerdicts event) (isVerdict event)
    · simp [Shell.log, isHistory]
  seats := judged.seats
  clock := judged.clock
  known := judged.known
  live := judged.live

theorem judged_openLane (shell : Shell) (request : Request) (holdsWriteLock : Bool)
    (handle : Handle) :
    Judged handle.nativeId shell (shell.openLane request holdsWriteLock handle) := by
  simp only [openLane]
  generalize webDoGate _ _ _ _ _ _ _ = gate
  rcases gate with ⟨decision, lanes⟩
  have reset : ∀ event ∈ (if request.newBatch = true then
      [Event.reset (keyOf request.session handle)] else []) ++
      [.admitted (keyOf request.session handle) request.batch], event.Verdict := by
    cases request.newBatch with
    | false => simp [Event.Verdict]
    | true => simp [Event.Verdict]
  cases decision with
  | preempted =>
      dsimp only
      by_cases counted : 0 < (shell.takeSeatInput handle.nativeId).1
      · rw [if_pos counted]
        exact (judged_of_check shell handle.nativeId lanes shell.runs).log (by simp [Event.Verdict])
      · rw [if_neg counted]
        exact judged_of_check shell handle.nativeId lanes shell.runs
  | seatInputOnUnrevealedSurface =>
      exact (judged_of_check shell handle.nativeId lanes shell.runs).log (by simp [Event.Verdict])
  | staleSurface => exact judged_of_check shell handle.nativeId lanes shell.runs
  | allowed =>
      cases holdsWriteLock with
      | false =>
          have logged := (judged_of_check shell handle.nativeId
            (lanes.preemptSurface (keyOf request.session handle)).2 shell.runs).log reset
          exact logged.log (by simp [Event.Verdict])
      | true => exact (judged_of_check shell handle.nativeId _ _).log reset

theorem judged_advance (shell : Shell) (number : Nat) (run : Run) :
    Judged run.handle.nativeId shell (shell.advance number run) := by
  simp only [advance]
  generalize batchStep _ _ _ = answer
  cases answer with
  | run => exact judged_of_check shell run.handle.nativeId _ _
  | abortPreempted => exact (judged_of_check shell _ _ _).log (by simp [Event.Verdict])
  | abortSeatInputOnUnrevealedSurface => exact (judged_of_check shell _ _ _).log (by simp [Event.Verdict])

/-- A check of another surface, or of one that is gone. -/
theorem Judged.yields {before after : Shell} {checked : Nat} (judged : Judged checked before after)
    (apart : nativeId ∈ before.live → checked ≠ nativeId)
    (runs : ∀ number : Nat, nativeId ∈ after.live → landing nativeId after.runs[number]? = true →
      landing nativeId before.runs[number]? = true) :
    ∃ events, Yields nativeId before after events := by
  obtain ⟨verdicts, areVerdicts, history⟩ := judged.history
  refine ⟨_, .silent history judged.known.ge (fun lives => judged.live ▸ lives) ?_ ?_ runs⟩
  · intro lives
    rw [judged.live] at lives
    rw [judged.seats, Function.update_of_ne (apart lives).symm]
  · intro number
    rw [List.countP_eq_zero]
    intro event member
    rcases List.mem_cons.mp member with rfl | member
    · exact Bool.false_ne_true
    · have verdict := areVerdicts event member
      cases event with
      | inject => exact verdict.elim
      | gesture => exact Bool.false_ne_true
      | check => exact Bool.false_ne_true
      | refused => exact Bool.false_ne_true
      | admitted => exact Bool.false_ne_true
      | preempt => exact Bool.false_ne_true
      | reset => exact Bool.false_ne_true

theorem openLane_runs (shell : Shell) (request : Request) (holdsWriteLock : Bool)
    (handle : Handle) :
    (shell.openLane request holdsWriteLock handle).runs = shell.runs ∨
      ∃ run : Run, run.handle = handle ∧
        (shell.openLane request holdsWriteLock handle).runs = shell.runs ++ [some run] := by
  simp only [openLane]
  generalize webDoGate _ _ _ _ _ _ _ = gate
  rcases gate with ⟨decision, lanes⟩
  cases decision with
  | preempted =>
      refine .inl ?_
      dsimp only
      by_cases counted : 0 < (shell.takeSeatInput handle.nativeId).1
      · rw [if_pos counted]
        rfl
      · rw [if_neg counted]
        rfl
  | seatInputOnUnrevealedSurface => exact .inl (by rfl)
  | staleSurface => exact .inl (by rfl)
  | allowed =>
      cases holdsWriteLock with
      | false => exact .inl (by rfl)
      | true =>
          exact .inr ⟨{ request, handle, index := 0, cleared := true, opened := Bool.noConfusion }, by rfl,
            by rfl⟩

/-- What a step does while a counted gesture waits on the surface. -/
def Outcome (nativeId : Nat) (before after : Shell) : Prop :=
  Answers nativeId before after ∨ ∃ events, Yields nativeId before after events

theorem outcome_openLane (request : Request) (holdsWriteLock : Bool) (handle : Handle)
    (waits : nativeId ∈ shell.live → 0 < (shell.seats nativeId).count) :
    Outcome nativeId shell (shell.openLane request holdsWriteLock handle) := by
  by_cases driven : nativeId ∈ shell.live ∧ handle.nativeId = nativeId
  · obtain ⟨isLive, rfl⟩ := driven
    exact .inl (answers_openLane request holdsWriteLock handle (waits isLive))
  · have judged := judged_openLane shell request holdsWriteLock handle
    rw [not_and] at driven
    refine .inr (judged.yields driven ?_)
    intro number lives lands
    rw [judged.live] at lives
    have appended := openLane_runs shell request holdsWriteLock handle
    rcases appended with same | ⟨run, isRun, more⟩
    · rwa [same] at lands
    · rw [more] at lands
      by_cases old : number < shell.runs.length
      · rwa [List.getElem?_append_left old] at lands
      · rw [List.getElem?_append_right (Nat.not_lt.mp old)] at lands
        cases isOffset : number - shell.runs.length with
        | zero => simp [isOffset, landing, isRun, driven lives] at lands
        | succ offset => simp [isOffset, landing] at lands

theorem outcome_advance {number : Nat} {run : Run} (unchecked : run.cleared = false)
    (waits : nativeId ∈ shell.live → 0 < (shell.seats nativeId).count) :
    Outcome nativeId shell (shell.advance number run) := by
  by_cases driven : nativeId ∈ shell.live ∧ run.handle.nativeId = nativeId
  · obtain ⟨isLive, rfl⟩ := driven
    exact .inl (answers_advance number run unchecked (waits isLive))
  · have judged := judged_advance shell number run
    rw [not_and] at driven
    refine .inr (judged.yields driven ?_)
    intro other lives lands
    rw [judged.live] at lives
    have either : landing nativeId shell.runs[other]? = true ∨
        run.handle.nativeId = nativeId := by
      simp only [advance] at lands
      split at lands
      · exact (landing_set lands).symm.imp_right fun landed => by simpa [landing] using landed
      · exact (landing_set lands).symm.imp_right fun landed => by simp [landing] at landed
      · exact (landing_set lands).symm.imp_right fun landed => by simp [landing] at landed
    exact either.resolve_right (driven lives)

theorem count_le_noteSeatInput (seat : Seat) (now : Nat) :
    seat.count ≤ (seat.noteSeatInput now).count := by
  unfold Seat.noteSeatInput
  by_cases spent : (seat.spendInjectionCredit now).1 = true
  · rw [if_pos spent]
    exact Nat.le_refl _
  · rw [if_neg spent]
    exact Nat.le_succ _

/-- An input that the observer saw on some surface. -/
theorem yields_noteSeatInput (checked : Nat) {events : List Event}
    (quiet : ∀ number : Nat, events.countP (Event.injects nativeId number) = 0) :
    Yields nativeId shell ((shell.setSeat checked
      ((shell.seats checked).noteSeatInput shell.clock)).log events) events := by
  refine .silent (by rfl) (Nat.le_refl _) id ?_ quiet fun _ _ lands => lands
  intro _
  simp only [log, setSeat, Function.update_apply]
  split
  · rename_i same
    subst same
    exact count_le_noteSeatInput _ _
  · exact Nat.le_refl _

/-- A surface goes, the one with the gesture or another one. -/
theorem yields_destroy {handle : Handle} {after : Shell} {events : List Event}
    (history : after.history = shell.history ++ events) (known : shell.nextId ≤ after.nextId)
    (live : nativeId ∈ after.live → nativeId ∈ (shell.destroy handle).live)
    (seats : after.seats = (shell.destroy handle).seats) (runs : after.runs = shell.runs)
    (quiet : ∀ number : Nat, events.countP (Event.injects nativeId number) = 0) :
    Yields nativeId shell after events := by
  have survives : nativeId ∈ after.live → nativeId ∈ shell.live ∧ nativeId ≠ handle.nativeId := by
    intro lives
    simpa [destroy] using live lives
  refine .silent history known (fun lives => (survives lives).1) ?_ quiet ?_
  · intro lives
    simp [seats, destroy, setSeat, Function.update_of_ne (survives lives).2]
  · intro number _ lands
    rwa [runs] at lands

theorem outcome_move {after : Shell} (move : Move shell after) (known : nativeId < shell.nextId)
    (waits : nativeId ∈ shell.live → 0 < (shell.seats nativeId).count) :
    Outcome nativeId shell after := by
  have older : ∀ {live : List Nat}, nativeId ∈ live ++ [shell.nextId] → nativeId ∈ live := by
    intro live lives
    exact (List.mem_append.mp lives).resolve_right fun fresh =>
      known.ne (List.mem_singleton.mp fresh)
  cases move with
  | idle => exact .inr ⟨[], .rfl⟩
  | pass =>
      exact .inr ⟨[], .silent (List.append_nil _).symm (Nat.le_refl _) id (fun _ => Nat.le_refl _)
        (fun _ => by simp) fun _ _ lands => lands⟩
  | gesture => exact .inr ⟨_, yields_noteSeatInput _ fun _ => by simp [Event.injects]⟩
  | lateInjection seen =>
      have quiet : ∀ number : Nat, List.countP (Event.injects nativeId number) [] = 0 :=
        fun _ => by simp
      have yields : Yields nativeId shell _ [] := yields_noteSeatInput seen quiet
      simp only [log, List.append_nil] at yields
      exact .inr ⟨[], yields⟩
  | create =>
      exact .inr ⟨[], .silent (List.append_nil _).symm (Nat.le_succ _) older
        (fun _ => Nat.le_refl _) (fun _ => by simp) fun _ _ lands => lands⟩
  | reveal =>
      exact .inr ⟨[], .silent (List.append_nil _).symm (Nat.le_refl _) id (fun _ => Nat.le_refl _)
        (fun _ => by simp) fun _ _ lands => lands⟩
  | rebuild =>
      exact .inr ⟨[], yields_destroy (List.append_nil _).symm (Nat.le_succ _) older (by rfl)
        (by rfl) fun _ => by simp⟩
  | close =>
      exact .inr ⟨_, yields_destroy (by rfl) (Nat.le_refl _) id (by rfl) (by rfl)
        fun _ => by simp [Event.injects]⟩
  | openLane request holdsWriteLock handle =>
      exact outcome_openLane request holdsWriteLock handle waits
  | perform number run events ok slot cleared =>
      exact .inr (yields_perform slot cleared events ok)
  | advance number run unchecked => exact outcome_advance unchecked waits

theorem Judged.grows {before after : Shell} {checked : Nat} (judged : Judged checked before after) :
    before.history <+: after.history := by
  obtain ⟨verdicts, _, history⟩ := judged.history
  exact ⟨_, history.symm⟩

theorem grows_move {after : Shell} (move : Move shell after) :
    shell.history <+: after.history := by
  cases move with
  | idle => exact List.prefix_rfl
  | pass => exact List.prefix_rfl
  | gesture => exact List.prefix_append _ _
  | lateInjection => exact List.prefix_rfl
  | create => exact List.prefix_rfl
  | reveal => exact List.prefix_rfl
  | rebuild => exact List.prefix_rfl
  | close => exact List.prefix_append _ _
  | openLane request holdsWriteLock handle => exact (judged_openLane shell request _ handle).grows
  | perform number run =>
      unfold perform
      split
      · exact List.prefix_append _ _
      · exact List.prefix_rfl
  | advance number run => exact (judged_advance shell number run).grows

/-- Since a gesture was counted on the surface: somebody has answered for it, or no run has used up
more than it was allowed then. -/
def Since (nativeId : Nat) (counted : Shell) (shell : Shell) : Prop :=
  ∃ back, shell.history = counted.history ++ back ∧
    (.refused nativeId ∈ back ∨
      nativeId < shell.nextId ∧ (nativeId ∈ shell.live → 0 < (shell.seats nativeId).count) ∧
        ∀ number, back.countP (Event.injects nativeId number) + shell.ready nativeId number ≤
          counted.ready nativeId number)

theorem since_step {counted : Shell} (since : Since nativeId counted shell) (action : Action) :
    Since nativeId counted (shell.step action) := by
  obtain ⟨back, isHistory, answered | ⟨known, waits, spare⟩⟩ := since
  · obtain ⟨events, grown⟩ := grows_move (shell.move_step action)
    refine ⟨back ++ events, ?_, .inl (List.mem_append_left _ answered)⟩
    rw [← grown, isHistory, List.append_assoc]
  · have outcome := outcome_move (shell.move_step action) known waits
    rcases outcome with ⟨events, grown, answers⟩ | ⟨events, yields⟩
    · refine ⟨back ++ events, ?_, .inl (List.mem_append_right _ answers)⟩
      rw [grown, isHistory, List.append_assoc]
    · refine ⟨back ++ events, ?_, .inr ⟨known.trans_le yields.known, ?_, ?_⟩⟩
      · rw [yields.history, isHistory, List.append_assoc]
      · exact fun lives => (waits (yields.live lives)).trans_le (yields.held lives)
      · intro number
        have before := spare number
        have step := yields.spare number
        rw [List.countP_append]
        omega

/-- Native ids are handed out in order. -/
def Known (shell : Shell) : Prop := ∀ nativeId ∈ shell.live, nativeId < shell.nextId

theorem Judged.known_of {before after : Shell} {checked : Nat}
    (judged : Judged checked before after) (known : before.Known) : after.Known := by
  unfold Known
  rw [judged.live, judged.known]
  exact known

theorem known_create (known : shell.Known) (session : String) (revealed : Bool) :
    (shell.create session revealed).Known := by
  intro nativeId lives
  rcases List.mem_append.mp lives with old | fresh
  · exact (known nativeId old).trans (Nat.lt_succ_self _)
  · exact List.mem_singleton.mp fresh ▸ Nat.lt_succ_self _

theorem known_destroy (known : shell.Known) (handle : Handle) : (shell.destroy handle).Known :=
  fun nativeId lives => known nativeId (List.mem_filter.mp lives).1

theorem known_move {after : Shell} (move : Move shell after) (known : shell.Known) :
    after.Known := by
  cases move with
  | idle => exact known
  | pass => exact known
  | gesture => exact known
  | lateInjection => exact known
  | create session revealed => exact known_create known session revealed
  | reveal => exact known
  | rebuild session revealed handle =>
      exact known_create (known_destroy known handle) session revealed
  | close session handle => exact known_destroy known handle
  | openLane request holdsWriteLock handle =>
      exact (judged_openLane shell request _ handle).known_of known
  | perform number run =>
      unfold perform
      split
      · exact known
      · exact known
  | advance number run => exact (judged_advance shell number run).known_of known

/-- The gesture itself. -/
theorem since_gesture (known : shell.Known) (counts : shell.Counts nativeId) :
    Since nativeId (shell.step (.gesture nativeId)) (shell.step (.gesture nativeId)) := by
  refine ⟨[], (List.append_nil _).symm, .inr ⟨?_, ?_, fun number => by simp⟩⟩
  · simp only [step, if_pos counts.1]
    exact known nativeId counts.1
  · intro _
    simp [step, if_pos counts.1, log, setSeat, Seat.noteSeatInput, Seat.spendInjectionCredit,
      counts.2]

theorem ready_gesture (number : Nat) :
    (shell.step (.gesture nativeId)).ready nativeId number = shell.ready nativeId number := by
  simp only [step]
  split
  · rfl
  · rfl

end Shell

/-- From a gesture that was counted as the human's until a check of the surface answers for it, no
run lands more on the surface than the one action that was past its check when the gesture came; a
run that opens after the gesture lands nothing. -/
theorem counted_gesture_stops_runs (before after : List Action) (nativeId : Nat)
    (counted : (run Shell.step .initial before).Counts nativeId) {back : List Event}
    (later : (run Shell.step .initial (before ++ .gesture nativeId :: after)).history =
      (run Shell.step .initial (before ++ [.gesture nativeId])).history ++ back)
    (unanswered : .refused nativeId ∉ back) (number : Nat) :
    back.countP (Event.injects nativeId number) ≤
      (run Shell.step .initial before).ready nativeId number := by
  have knownStep : ∀ (shell : Shell) action, shell.Known → (shell.step action).Known :=
    fun shell action known => Shell.known_move (shell.move_step action) known
  have known : (run Shell.step .initial before).Known :=
    run_invariant knownStep (fun nativeId lives => absurd lives List.not_mem_nil) before
  have sinceStep : ∀ (shell : Shell) action,
      Shell.Since nativeId (run Shell.step .initial (before ++ [.gesture nativeId])) shell →
        Shell.Since nativeId (run Shell.step .initial (before ++ [.gesture nativeId]))
          (shell.step action) :=
    fun shell action since => Shell.since_step since action
  have start := Shell.since_gesture known counted
  have isGesture : run Shell.step .initial (before ++ [.gesture nativeId]) =
      (run Shell.step .initial before).step (.gesture nativeId) := run_append _ _ _ _
  have isRun : run Shell.step .initial (before ++ .gesture nativeId :: after) =
      run Shell.step (run Shell.step .initial (before ++ [.gesture nativeId])) after := by
    rw [← run_append, List.append_assoc, List.singleton_append]
  rw [← isGesture] at start
  obtain ⟨events, history, outcome⟩ := run_invariant sinceStep start after
  rw [isRun, history] at later
  obtain rfl := List.append_cancel_left later
  have spare := (outcome.resolve_left unanswered).2.2 number
  rw [isGesture, Shell.ready_gesture] at spare
  exact (Nat.le_add_right _ _).trans spare

def batchOfTwo : Request where
  session := "s"
  batch := "anonymous"
  expectedGeneration := none
  newBatch := true
  actions := 2
  stopOnError := false

/-- A gesture between the opening of a batch and its first action: the action lands, the check
behind it has not been made. -/
theorem counted_gesture_stops_runs_of_batch :
    List.countP (Event.injects 1 0) [.inject 1 0 0 1] ≤
      (run Shell.step .initial [.create "s" true, .start batchOfTwo true]).ready 1 0 :=
  counted_gesture_stops_runs [.create "s" true, .start batchOfTwo true]
    [.perform 0 1 true, .pass 5] 1 (by decide) (by decide) (by decide) 0

end Yggterm.AgentInput
