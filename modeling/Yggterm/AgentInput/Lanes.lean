import Yggterm.AgentInput.Plane

/-!
# What the arbiter remembers

Along every run the arbiter says of a batch what the history of the surface says of it: it drives
the surface, or it was cancelled there.  So the gate's answer can be read off the history.
-/

namespace Yggterm.AgentInput

open Runs

/-! ## The lanes and the history -/

/-- The batch drives the surface: it was admitted, and nothing has cancelled it since. -/
def Active (surface : SurfaceKey) (batch : String) (history : List Event) : Prop :=
  ∃ front back, history = front ++ .admitted surface batch :: back ∧
    .preempt surface ∉ back ∧ .reset surface ∉ back

/-- The batch was cancelled after it was admitted, and the lane was not reset since. -/
def Locked (surface : SurfaceKey) (batch : String) (history : List Event) : Prop :=
  ∃ front between back,
    history = front ++ .admitted surface batch :: between ++ .preempt surface :: back ∧
      .reset surface ∉ between ∧ .reset surface ∉ back

variable {surface other : SurfaceKey} {batch : String} {history : List Event} {event : Event}
variable {lanes : Lanes}

theorem active_append : Active surface batch (history ++ [event]) ↔
    event = .admitted surface batch ∨
      event ≠ .preempt surface ∧ event ≠ .reset surface ∧ Active surface batch history := by
  constructor
  · intro ⟨front, back, split, unpreempted, unreset⟩
    rcases List.eq_nil_or_concat' back with empty | ⟨back, last, rfl⟩
    · subst empty
      exact .inl (List.singleton_inj.mp (List.append_inj' split rfl).2)
    · simp only [List.mem_append, List.mem_singleton, not_or] at unpreempted unreset
      rw [← List.cons_append, ← List.append_assoc] at split
      obtain ⟨same, isLast⟩ := List.append_inj' split rfl
      obtain rfl := List.singleton_inj.mp isLast
      exact .inr ⟨Ne.symm unpreempted.2, Ne.symm unreset.2, front, back, same, unpreempted.1,
        unreset.1⟩
  · intro cases
    rcases cases with rfl | ⟨unpreempted, unreset, front, back, rfl, before, beforeReset⟩
    · exact ⟨history, [], rfl, List.not_mem_nil, List.not_mem_nil⟩
    · refine ⟨front, back ++ [event], by simp, ?_, ?_⟩
      · simp [before, Ne.symm unpreempted]
      · simp [beforeReset, Ne.symm unreset]

theorem locked_append : Locked surface batch (history ++ [event]) ↔
    event = .preempt surface ∧ Active surface batch history ∨
      event ≠ .reset surface ∧ Locked surface batch history := by
  constructor
  · intro ⟨front, between, back, split, unreset, kept⟩
    rcases List.eq_nil_or_concat' back with empty | ⟨back, last, rfl⟩
    · subst empty
      obtain ⟨rfl, isPreempt⟩ := List.append_inj' split rfl
      obtain rfl := List.singleton_inj.mp isPreempt
      by_cases preempted : .preempt surface ∈ between
      · obtain ⟨first, second, rfl⟩ := List.append_of_mem preempted
        simp only [List.mem_append, List.mem_cons, not_or] at unreset
        exact .inr ⟨nofun, front, first, second, by simp, unreset.1, unreset.2.2⟩
      · exact .inl ⟨rfl, front, between, rfl, preempted, unreset⟩
    · simp only [List.mem_append, List.mem_singleton, not_or] at kept
      rw [← List.cons_append, ← List.append_assoc] at split
      obtain ⟨same, isLast⟩ := List.append_inj' split rfl
      obtain rfl := List.singleton_inj.mp isLast
      exact .inr ⟨Ne.symm kept.2, front, between, back, same, unreset, kept.1⟩
  · intro cases
    rcases cases with ⟨rfl, front, back, rfl, _, unreset⟩ | ⟨last, front, between, back, rfl, kept⟩
    · exact ⟨front, back, [], by simp, unreset, List.not_mem_nil⟩
    · refine ⟨front, between, back ++ [event], by simp, kept.1, ?_⟩
      simp [kept.2, Ne.symm last]

/-- The lanes say of every batch what the history says of it. -/
def Recorded (lanes : Lanes) (history : List Event) : Prop :=
  ∀ surface batch,
    (batch ∈ (lanes.laneOf surface).activeBatches ↔ Active surface batch history) ∧
      (batch ∈ (lanes.laneOf surface).preemptedBatches ↔ Locked surface batch history)

theorem Lanes.laneOf_update (lane : Option SurfaceLane) :
    Lanes.laneOf (Function.update lanes surface lane) other =
      if other = surface then lane.getD .empty else lanes.laneOf other := by
  unfold Lanes.laneOf
  rw [Function.update_apply]
  split <;> rfl

theorem mem_foldl_insert {batches preempted : List String} :
    batch ∈ batches.foldl (fun preempted batch =>
        if batch ∈ preempted then preempted else preempted ++ [batch]) preempted ↔
      batch ∈ preempted ∨ batch ∈ batches := by
  induction batches generalizing preempted with
  | nil => simp
  | cons first rest inductionHypothesis =>
      rw [List.foldl_cons, inductionHypothesis, List.mem_cons]
      by_cases known : first ∈ preempted
      · rw [if_pos known]
        constructor
        · exact fun member => member.imp_right .inr
        · intro member
          rcases member with member | rfl | member
          · exact .inl member
          · exact .inl known
          · exact .inr member
      · rw [if_neg known, List.mem_append, List.mem_singleton, or_assoc]

/-- An event that is none of the arbiter's. -/
def Event.Silent : Event → Prop
  | .admitted _ _ | .preempt _ | .reset _ => False
  | _ => True

namespace Recorded

theorem silent (recorded : Recorded lanes history) (event : Event) (quiet : event.Silent) :
    Recorded lanes (history ++ [event]) := by
  intro surface batch
  rw [(recorded surface batch).1, (recorded surface batch).2, active_append, locked_append]
  cases event with
  | admitted => exact quiet.elim
  | preempt => exact quiet.elim
  | reset => exact quiet.elim
  | gesture => simp
  | inject => simp
  | check => simp
  | refused => simp

theorem preemptSurface (recorded : Recorded lanes history) (surface : SurfaceKey) :
    Recorded (lanes.preemptSurface surface).2 (history ++ [.preempt surface]) := by
  intro other batch
  have known := recorded other batch
  rw [active_append, locked_append]
  unfold Lanes.preemptSurface
  cases found : lanes surface with
  | none =>
      by_cases same : other = surface
      · subst same
        simp only [Lanes.laneOf, found, Option.getD_none, SurfaceLane.empty, List.not_mem_nil,
          false_iff] at known
        simp [Lanes.laneOf, found, SurfaceLane.empty, known.1, known.2]
      · simp [known, Ne.symm same]
  | some lane =>
      simp only [Lanes.laneOf_update]
      by_cases same : other = surface
      · subst same
        simp only [Lanes.laneOf, found, Option.getD_some] at known
        simp only [if_true, Option.getD_some, mem_foldl_insert, known]
        simp [or_comm]
      · rw [if_neg same]
        simp [known, Ne.symm same]

theorem forget (recorded : Recorded lanes history) :
    Recorded (lanes.forget surface) (history ++ [.reset surface]) := by
  intro other batch
  have known := recorded other batch
  rw [active_append, locked_append]
  unfold Lanes.forget
  rw [Lanes.laneOf_update]
  by_cases same : other = surface
  · subst same
    simp [SurfaceLane.empty]
  · rw [if_neg same]
    simp [known, Ne.symm same]

/-- An admission on the surface's own generation. -/
theorem admitBatch_fst (lanes : Lanes) (surface : SurfaceKey) (batch : String) :
    (lanes.admitBatch surface batch surface.generation).1 =
      if batch ∈ (lanes.laneOf surface).preemptedBatches then .preempted else .allowed := by
  simp only [Lanes.admitBatch, Lanes.isStale, ne_eq, not_true, decide_false, Bool.false_eq_true,
    if_false]
  split
  · rfl
  · rfl

theorem admitBatch (recorded : Recorded lanes history)
    (allowed : (lanes.admitBatch surface batch surface.generation).1 = .allowed) :
    Recorded (lanes.admitBatch surface batch surface.generation).2
      (history ++ [.admitted surface batch]) := by
  rw [admitBatch_fst] at allowed
  have free : batch ∉ (lanes.laneOf surface).preemptedBatches := by
    intro locked
    simp [locked] at allowed
  intro other name
  have known := recorded other name
  rw [active_append, locked_append]
  simp only [Lanes.admitBatch, Lanes.isStale, ne_eq, not_true, decide_false, if_neg free,
    Lanes.laneOf_update, Bool.false_eq_true, if_false]
  by_cases same : other = surface
  · subst same
    have isName : Event.admitted other batch = .admitted other name ↔ name = batch := by
      simp [eq_comm]
    rw [if_pos rfl, Option.getD_some, isName]
    have added : name ∈ (if batch ∈ (lanes.laneOf other).activeBatches then
        (lanes.laneOf other).activeBatches else (lanes.laneOf other).activeBatches ++ [batch]) ↔
        name = batch ∨ name ∈ (lanes.laneOf other).activeBatches := by
      split
      · rename_i active
        exact ⟨.inr, fun member => member.elim (fun same => same ▸ active) id⟩
      · rw [List.mem_append, List.mem_singleton, or_comm]
    simp [added, known]
  · rw [if_neg same]
    simp [known, Ne.symm same]

theorem admitBatch_preempted (recorded : Recorded lanes history)
    (refused : (lanes.admitBatch surface batch surface.generation).1 = .preempted) :
    Recorded (lanes.admitBatch surface batch surface.generation).2 history := by
  rw [admitBatch_fst] at refused
  have locked : batch ∈ (lanes.laneOf surface).preemptedBatches := by
    by_contra free
    simp [free] at refused
  intro other name
  have known := recorded other name
  simp only [Lanes.admitBatch, Lanes.isStale, ne_eq, not_true, decide_false, if_pos locked,
    Lanes.laneOf_update, Bool.false_eq_true, if_false]
  by_cases same : other = surface
  · subst same
    simpa using known
  · rw [if_neg same]
    exact known

end Recorded

/-- What the gate does on the generation the handle has. -/
theorem webDoGate_eq (lanes : Lanes) (surface : SurfaceKey) (batch : String) (count : Nat)
    (revealed newBatch : Bool) :
    webDoGate count revealed newBatch lanes surface batch surface.generation =
      if 0 < count then
        if revealed then (.preempted, (lanes.preemptSurface surface).2)
        else (.seatInputOnUnrevealedSurface, lanes)
      else
        let reopened := if newBatch then lanes.forget surface else lanes
        let admitted := reopened.admitBatch surface batch surface.generation
        if batch ∈ (reopened.laneOf surface).preemptedBatches then (.preempted, admitted.2)
        else (.allowed, admitted.2) := by
  simp only [webDoGate, Lanes.isStale, ne_eq, not_true, decide_false, Bool.false_eq_true, if_false]
  by_cases counted : 0 < count
  · cases revealed with
    | false => simp [counted]
    | true => simp [counted, Lanes.noteHumanInput]
  · simp only [counted, false_and, if_false]
    generalize (if newBatch then lanes.forget surface else lanes) = reopened
    have decided := Recorded.admitBatch_fst reopened surface batch
    rcases answer : reopened.admitBatch surface batch surface.generation with ⟨outcome, after⟩
    rw [answer] at decided
    dsimp only at decided ⊢
    subst decided
    by_cases locked : batch ∈ (reopened.laneOf surface).preemptedBatches
    · simp [locked]
    · simp [locked]

namespace Shell

variable {shell : Shell}

/-- The shell's lanes are those of its history. -/
def Recorded (shell : Shell) : Prop := AgentInput.Recorded shell.lanes shell.history

/-- A lane that is reopened or left, and the history behind it. -/
theorem recorded_reopened (recorded : AgentInput.Recorded lanes history) (surface : SurfaceKey)
    (newBatch : Bool) :
    AgentInput.Recorded (if newBatch then lanes.forget surface else lanes)
      (history ++ if newBatch then [.reset surface] else []) := by
  cases newBatch with
  | false => simpa using recorded
  | true => exact recorded.forget

theorem recorded_openLane (recorded : shell.Recorded) (request : Request) (holdsWriteLock : Bool)
    (handle : Handle) : (shell.openLane request holdsWriteLock handle).Recorded := by
  have checked : AgentInput.Recorded shell.lanes
      (shell.history ++ [.check handle.nativeId (shell.seats handle.nativeId).count]) :=
    recorded.silent _ trivial
  have gated := webDoGate_eq shell.lanes (keyOf request.session handle) request.batch
    (shell.seats handle.nativeId).count handle.everRevealed request.newBatch
  have refused := checked.silent (.refused handle.nativeId) trivial
  simp only [Recorded, openLane, takeSeatInput]
  rw [show handle.generation = (keyOf request.session handle).generation from rfl, gated]
  by_cases counted : 0 < (shell.seats handle.nativeId).count
  · cases handle.everRevealed with
    | false => simpa [counted, log, setSeat] using refused
    | true =>
        have preempted := refused.preemptSurface (keyOf request.session handle)
        simpa [counted, log, setSeat] using preempted
  · have reopened := recorded_reopened checked (keyOf request.session handle) request.newBatch
    have admission := Recorded.admitBatch_fst
      (if request.newBatch then shell.lanes.forget (keyOf request.session handle) else shell.lanes)
      (keyOf request.session handle) request.batch
    simp only [counted, if_false]
    by_cases locked : request.batch ∈ ((if request.newBatch then
        shell.lanes.forget (keyOf request.session handle)
      else shell.lanes).laneOf (keyOf request.session handle)).preemptedBatches
    · have kept : request.newBatch = false := by
        rw [Bool.eq_false_iff]
        intro isNew
        rw [if_pos isNew, Lanes.forget, Lanes.laneOf_update] at locked
        simp [SurfaceLane.empty] at locked
      rw [if_pos locked] at admission
      have after := reopened.admitBatch_preempted admission
      simp only [kept, Bool.false_eq_true, if_false, List.append_nil] at after locked ⊢
      simpa [locked, setSeat, log] using after
    · rw [if_neg locked] at admission
      have admitted := reopened.admitBatch admission
      have preempted := admitted.preemptSurface (keyOf request.session handle)
      rw [if_neg locked]
      cases holdsWriteLock with
      | true => simpa [setSeat, log] using admitted
      | false => simpa [setSeat, log] using preempted

theorem recorded_advance (recorded : shell.Recorded) (number : Nat) (run : Run) :
    (shell.advance number run).Recorded := by
  have checked : AgentInput.Recorded shell.lanes
      (shell.history ++ [.check run.handle.nativeId (shell.seats run.handle.nativeId).count]) :=
    recorded.silent _ trivial
  have refused := checked.silent (.refused run.handle.nativeId) trivial
  simp only [Recorded, advance, takeSeatInput]
  split
  · exact checked
  · have preempted := refused.preemptSurface (keyOf run.request.session run.handle)
    simpa [log, setSeat, Lanes.noteHumanInput] using preempted
  · simpa [log, setSeat] using refused

theorem recorded_move {after : Shell} (move : Move shell after) (recorded : shell.Recorded) :
    after.Recorded := by
  cases move with
  | idle => exact recorded
  | pass => exact recorded
  | gesture => exact recorded.silent _ trivial
  | lateInjection => exact recorded
  | create => exact recorded
  | reveal => exact recorded
  | rebuild => exact recorded
  | close => exact recorded.forget
  | openLane request holdsWriteLock handle => exact recorded_openLane recorded _ _ _
  | perform number run =>
      unfold perform
      split
      · exact recorded.silent _ trivial
      · exact recorded
  | advance number run => exact recorded_advance recorded number run

theorem recorded_initial : initial.Recorded := by
  intro surface batch
  simp [initial, Lanes.laneOf, SurfaceLane.empty, Active, Locked]

end Shell

/-- A verb is told that the human took the surface exactly when a gesture on a surface that was
shown waits, or when its batch was cancelled after it was last admitted and the lane was not reset
since; on a surface that nobody was shown, nothing is ever put on the human. -/
theorem preempted_iff_history (actions : List Action) (session batch : String) (handle : Handle)
    (seatInputCount : Nat) (newBatch : Bool) :
    (webDoGate seatInputCount handle.everRevealed newBatch
        (run Shell.step .initial actions).lanes (Shell.keyOf session handle) batch
        handle.generation).1 = .preempted ↔
      0 < seatInputCount ∧ handle.everRevealed = true ∨
        seatInputCount = 0 ∧ newBatch = false ∧
          Locked (Shell.keyOf session handle) batch (run Shell.step .initial actions).history := by
  have preserved : ∀ (shell : Shell) action, shell.Recorded → (shell.step action).Recorded :=
    fun shell action before => Shell.recorded_move (shell.move_step action) before
  have recorded : (run Shell.step .initial actions).Recorded :=
    run_invariant preserved Shell.recorded_initial actions
  rw [show handle.generation = (Shell.keyOf session handle).generation from rfl, webDoGate_eq,
    ← (recorded (Shell.keyOf session handle) batch).2]
  by_cases counted : 0 < seatInputCount
  · cases handle.everRevealed with
    | false => simp [counted, Nat.pos_iff_ne_zero.mp counted]
    | true => simp [counted]
  · have isZero : seatInputCount = 0 := Nat.eq_zero_of_not_pos counted
    cases newBatch with
    | false =>
        by_cases locked : batch ∈ ((run Shell.step .initial actions).lanes.laneOf
          (Shell.keyOf session handle)).preemptedBatches
        · simp [isZero, locked]
        · simp [isZero, locked]
    | true => simp [isZero, Lanes.forget, Lanes.laneOf_update, SurfaceLane.empty]

end Yggterm.AgentInput
