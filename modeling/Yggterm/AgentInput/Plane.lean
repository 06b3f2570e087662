import Mathlib.Data.List.Basic
import Mathlib.Logic.Function.Basic
import Yggterm.Library.Runs

/-!
# Agents and the human on a web surface

Agents drive web surfaces by injected events, and the human may take a surface back at any moment.
The engine counts the human's gestures apart from injected events
(`vendor/dioxus-desktop/src/web_surface.rs`), the arbiter remembers which batches were cancelled
(`yggterm-shell/src/agent_input_arbiter.rs`), and `web do` and `web batch` ask both before every
action (`web_do_gate`, `web_do_open_lane`, `WebBatchTally::step` of
`yggterm-shell/src/shell/state.rs`).
-/

namespace Yggterm.AgentInput

/-! ## Seat input -/

def injectionCreditTtlMs : Nat := 250

/-- What the engine keeps for a surface: the gestures not yet consumed, and when each credit for an
injected event was granted, oldest first. -/
structure Seat where
  count : Nat
  credits : List Nat
  deriving DecidableEq

namespace Seat

def none : Seat where
  count := 0
  credits := []

def grantInjectionCredits (seat : Seat) (count now : Nat) : Seat :=
  { seat with credits := seat.credits ++ List.replicate count now }

/-- The credits that are not expired. -/
def fresh (seat : Seat) (now : Nat) : List Nat :=
  seat.credits.dropWhile fun granted => decide (injectionCreditTtlMs ≤ now - granted)

def spendInjectionCredit (seat : Seat) (now : Nat) : Bool × Seat :=
  (!(seat.fresh now).isEmpty, { seat with credits := (seat.fresh now).tail })

/-- The observer outside of a delivery; during one it returns at once. -/
def noteSeatInput (seat : Seat) (now : Nat) : Seat :=
  let spent := seat.spendInjectionCredit now
  if spent.1 then spent.2 else { spent.2 with count := seat.count + 1 }

end Seat

/-! ## The arbiter -/

structure SurfaceKey where
  sessionPath : String
  generation : Nat
  deriving DecidableEq

structure SurfaceLane where
  activeBatches : List String
  preemptedBatches : List String
  deriving DecidableEq

inductive AdmitOutcome where
  | allowed
  | preempted
  | staleSurface
  deriving DecidableEq

/-- `AgentInputArbiter`; the table of lanes as a function. -/
abbrev Lanes := SurfaceKey → Option SurfaceLane

def SurfaceLane.empty : SurfaceLane where
  activeBatches := []
  preemptedBatches := []

namespace Lanes

def isStale (surface : SurfaceKey) (liveGeneration : Nat) : Bool :=
  surface.generation ≠ liveGeneration

/-- `entry(..).or_default()` -/
def laneOf (lanes : Lanes) (surface : SurfaceKey) : SurfaceLane :=
  (lanes surface).getD .empty

def admitBatch (lanes : Lanes) (surface : SurfaceKey) (batch : String) (liveGeneration : Nat) :
    AdmitOutcome × Lanes :=
  if isStale surface liveGeneration then (.staleSurface, lanes)
  else
    let lane := lanes.laneOf surface
    if batch ∈ lane.preemptedBatches then
      (.preempted, Function.update lanes surface (some lane))
    else
      let active :=
        if batch ∈ lane.activeBatches then lane.activeBatches else lane.activeBatches ++ [batch]
      (.allowed, Function.update lanes surface (some { lane with activeBatches := active }))

/-- The batches that were cancelled, and the lanes. -/
def preemptSurface (lanes : Lanes) (surface : SurfaceKey) : List String × Lanes :=
  match lanes surface with
  | none => ([], lanes)
  | some lane =>
      (lane.activeBatches,
        Function.update lanes surface (some
          { activeBatches := []
            preemptedBatches := lane.activeBatches.foldl
              (fun preempted batch => if batch ∈ preempted then preempted else preempted ++ [batch])
              lane.preemptedBatches }))

def noteHumanInput (lanes : Lanes) (surface : SurfaceKey) : List String × Lanes :=
  lanes.preemptSurface surface

def forget (lanes : Lanes) (surface : SurfaceKey) : Lanes := Function.update lanes surface none

end Lanes

/-! ## The gate -/

inductive GateDecision where
  | allowed
  | preempted
  | staleSurface
  | seatInputOnUnrevealedSurface
  deriving DecidableEq

def webDoGate (seatInputCount : Nat) (surfaceEverRevealed newBatch : Bool) (lanes : Lanes)
    (surface : SurfaceKey) (batch : String) (liveGeneration : Nat) : GateDecision × Lanes :=
  if Lanes.isStale surface liveGeneration then (.staleSurface, lanes)
  else if 0 < seatInputCount ∧ surfaceEverRevealed = false then
    (.seatInputOnUnrevealedSurface, lanes)
  else if 0 < seatInputCount then (.preempted, (lanes.noteHumanInput surface).2)
  else
    let reopened := if newBatch then lanes.forget surface else lanes
    match reopened.admitBatch surface batch liveGeneration with
    | (.allowed, admitted) => (.allowed, admitted)
    | (.preempted, refused) => (.preempted, refused)
    | (.staleSurface, refused) => (.staleSurface, refused)

inductive BatchStep where
  | run
  | abortPreempted
  | abortSeatInputOnUnrevealedSurface
  deriving DecidableEq

/-- `WebBatchTally::step` -/
def batchStep (index seatInputCount : Nat) (surfaceEverRevealed : Bool) : BatchStep :=
  if index = 0 ∨ seatInputCount = 0 then .run
  else if surfaceEverRevealed = false then .abortSeatInputOnUnrevealedSurface
  else .abortPreempted

/-! ## The shell -/

/-- `WebSurfaceHandle` -/
structure Handle where
  nativeId : Nat
  generation : Nat
  everRevealed : Bool
  deriving DecidableEq

/-- What an agent asks for.  A `do` is one action, and a batch opens a lane of its own. -/
structure Request where
  session : String
  batch : String
  expectedGeneration : Option Nat
  newBatch : Bool
  actions : Nat
  stopOnError : Bool
  deriving DecidableEq

/-- A request on its way through its actions.  The handle is the one it was opened with. -/
structure Run where
  request : Request
  handle : Handle
  index : Nat
  /-- The check of the action at `index` is behind it. -/
  cleared : Bool
  /-- The first action is checked when the lane opens. -/
  opened : cleared = false → 0 < index
  deriving DecidableEq

/-- What becomes of a run behind its action. -/
def Run.next (run : Run) (ok : Bool) : Option Run :=
  if ok = false ∧ run.request.stopOnError = true then none
  else if run.index + 1 < run.request.actions then
    some { run with
      index := run.index + 1
      cleared := false
      opened := fun _ => Nat.succ_pos run.index }
  else none

/-- What happened, as far as the surfaces are concerned. -/
inductive Event where
  | gesture (nativeId now : Nat) (counted : Bool)
  | inject (nativeId number now events : Nat)
  | check (nativeId count : Nat)
  | refused (nativeId : Nat)
  | admitted (surface : SurfaceKey) (batch : String)
  | preempt (surface : SurfaceKey)
  | reset (surface : SurfaceKey)
  deriving DecidableEq

structure Shell where
  clock : Nat
  seats : Nat → Seat
  lanes : Lanes
  surfaces : String → Option Handle
  /-- The surfaces the engine has, by their native ids. -/
  live : List Nat
  /-- Native ids and generations are handed out in order. -/
  nextId : Nat
  runs : List (Option Run)
  history : List Event

inductive Action where
  | pass (millis : Nat)
  | gesture (nativeId : Nat)
  | lateInjection (nativeId : Nat)
  | create (session : String) (revealed : Bool)
  | reveal (session : String)
  | rebuild (session : String) (revealed : Bool)
  | close (session : String)
  | start (request : Request) (holdsWriteLock : Bool)
  | perform (number events : Nat) (ok : Bool)
  | advance (number : Nat)
  deriving DecidableEq

namespace Shell

def log (shell : Shell) (events : List Event) : Shell :=
  { shell with history := shell.history ++ events }

def setSeat (shell : Shell) (nativeId : Nat) (seat : Seat) : Shell :=
  { shell with seats := Function.update shell.seats nativeId seat }

/-- `take_web_surface_seat_input` -/
def takeSeatInput (shell : Shell) (nativeId : Nat) : Nat × Shell :=
  ((shell.seats nativeId).count,
    (shell.setSeat nativeId .none).log [.check nativeId (shell.seats nativeId).count])

/-- The surface goes, with what the engine counted for it. -/
def destroy (shell : Shell) (handle : Handle) : Shell :=
  { shell.setSeat handle.nativeId .none with
    live := shell.live.filter fun nativeId => nativeId ≠ handle.nativeId }

def create (shell : Shell) (session : String) (revealed : Bool) : Shell :=
  { shell with
    surfaces := Function.update shell.surfaces session (some
      { nativeId := shell.nextId, generation := shell.nextId, everRevealed := revealed })
    live := shell.live ++ [shell.nextId]
    nextId := shell.nextId + 1 }

def keyOf (session : String) (handle : Handle) : SurfaceKey where
  sessionPath := session
  generation := handle.generation

/-- `web_do_open_lane` on the surface of the session. -/
def openLane (shell : Shell) (request : Request) (holdsWriteLock : Bool) (handle : Handle) :
    Shell :=
  let key := keyOf request.session handle
  let taken := shell.takeSeatInput handle.nativeId
  let gate := webDoGate taken.1 handle.everRevealed request.newBatch shell.lanes key request.batch
    handle.generation
  let judged := { taken.2 with lanes := gate.2 }
  match gate.1 with
  | .preempted =>
      if 0 < taken.1 then judged.log [.refused handle.nativeId, .preempt key] else judged
  | .seatInputOnUnrevealedSurface => judged.log [.refused handle.nativeId]
  | .staleSurface => judged
  | .allowed =>
      let reset : List Event := if request.newBatch then [.reset key] else []
      let admitted := judged.log (reset ++ [.admitted key request.batch])
      if holdsWriteLock then
        { admitted with
          runs := admitted.runs ++
            [some { request, handle, index := 0, cleared := true, opened := Bool.noConfusion }] }
      else
        { admitted with lanes := (admitted.lanes.preemptSurface key).2 }.log [.preempt key]

/-- The action at the index of a run; a surface that is gone refuses it. -/
def perform (shell : Shell) (number : Nat) (run : Run) (events : Nat) (ok : Bool) : Shell :=
  if run.handle.nativeId ∈ shell.live then
    { (shell.setSeat run.handle.nativeId
        ((shell.seats run.handle.nativeId).grantInjectionCredits events shell.clock)).log
        [.inject run.handle.nativeId number shell.clock events] with
      runs := shell.runs.set number (run.next ok) }
  else { shell with runs := shell.runs.set number (run.next false) }

/-- The check between two actions of a batch. -/
def advance (shell : Shell) (number : Nat) (run : Run) : Shell :=
  let key := keyOf run.request.session run.handle
  let taken := shell.takeSeatInput run.handle.nativeId
  match batchStep run.index taken.1 run.handle.everRevealed with
  | .run =>
      { taken.2 with
        runs := shell.runs.set number (some { run with cleared := true, opened := Bool.noConfusion }) }
  | .abortPreempted =>
      { taken.2.log [.refused run.handle.nativeId, .preempt key] with
        lanes := (shell.lanes.noteHumanInput key).2
        runs := shell.runs.set number none }
  | .abortSeatInputOnUnrevealedSurface =>
      { taken.2.log [.refused run.handle.nativeId] with runs := shell.runs.set number none }

def step (shell : Shell) : Action → Shell
  | .pass millis => { shell with clock := shell.clock + millis }
  | .gesture nativeId =>
      if nativeId ∈ shell.live then
        let seat := shell.seats nativeId
        (shell.setSeat nativeId (seat.noteSeatInput shell.clock)).log
          [.gesture nativeId shell.clock !(seat.spendInjectionCredit shell.clock).1]
      else shell
  | .lateInjection nativeId =>
      if nativeId ∈ shell.live then
        shell.setSeat nativeId ((shell.seats nativeId).noteSeatInput shell.clock)
      else shell
  | .create session revealed =>
      match shell.surfaces session with
      | none => shell.create session revealed
      | some _ => shell
  | .reveal session =>
      match shell.surfaces session with
      | none => shell
      | some handle =>
          { shell with
            surfaces :=
              Function.update shell.surfaces session (some { handle with everRevealed := true }) }
  | .rebuild session revealed =>
      match shell.surfaces session with
      | none => shell
      | some handle => (shell.destroy handle).create session revealed
  | .close session =>
      match shell.surfaces session with
      | none => shell
      | some handle =>
          { shell.destroy handle with
            surfaces := Function.update shell.surfaces session none
            lanes := shell.lanes.forget (keyOf session handle) }.log [.reset (keyOf session handle)]
  | .start request holdsWriteLock =>
      match shell.surfaces request.session with
      | none => shell
      | some handle =>
          if request.actions = 0 then shell
          else
            match request.expectedGeneration with
            | none => shell.openLane request holdsWriteLock handle
            | some expected =>
                if expected = handle.generation then shell.openLane request holdsWriteLock handle
                else shell
  | .perform number events ok =>
      match shell.runs[number]? with
      | some (some run) => if run.cleared then shell.perform number run events ok else shell
      | _ => shell
  | .advance number =>
      match shell.runs[number]? with
      | some (some run) => if run.cleared then shell else shell.advance number run
      | _ => shell

/-- A shell without surfaces. -/
def initial : Shell where
  clock := 0
  seats := fun _ => .none
  lanes := fun _ => none
  surfaces := fun _ => none
  live := []
  nextId := 1
  runs := []
  history := []

/-- What a step can do. -/
inductive Move (shell : Shell) : Shell → Prop where
  | idle : Move shell shell
  | pass (millis : Nat) : Move shell { shell with clock := shell.clock + millis }
  | gesture (nativeId : Nat) : Move shell
      ((shell.setSeat nativeId ((shell.seats nativeId).noteSeatInput shell.clock)).log
        [.gesture nativeId shell.clock
          !((shell.seats nativeId).spendInjectionCredit shell.clock).1])
  | lateInjection (nativeId : Nat) : Move shell
      (shell.setSeat nativeId ((shell.seats nativeId).noteSeatInput shell.clock))
  | create (session : String) (revealed : Bool) : Move shell (shell.create session revealed)
  | reveal (surfaces : String → Option Handle) : Move shell { shell with surfaces }
  | rebuild (session : String) (revealed : Bool) (handle : Handle) :
      Move shell ((shell.destroy handle).create session revealed)
  | close (session : String) (handle : Handle) : Move shell
      ({ shell.destroy handle with
        surfaces := Function.update shell.surfaces session none
        lanes := shell.lanes.forget (keyOf session handle) }.log [.reset (keyOf session handle)])
  | openLane (request : Request) (holdsWriteLock : Bool) (handle : Handle) :
      Move shell (shell.openLane request holdsWriteLock handle)
  | perform (number : Nat) (run : Run) (events : Nat) (ok : Bool)
      (slot : shell.runs[number]? = some (some run)) (cleared : run.cleared = true) :
      Move shell (shell.perform number run events ok)
  | advance (number : Nat) (run : Run) (unchecked : run.cleared = false) :
      Move shell (shell.advance number run)

theorem move_step (shell : Shell) (action : Action) : Move shell (shell.step action) := by
  cases action with
  | pass millis => exact .pass millis
  | gesture nativeId =>
      simp only [step]
      split
      · exact .gesture nativeId
      · exact .idle
  | lateInjection nativeId =>
      simp only [step]
      split
      · exact .lateInjection nativeId
      · exact .idle
  | create session revealed =>
      simp only [step]
      split
      · exact .create session revealed
      · exact .idle
  | reveal session =>
      simp only [step]
      split
      · exact .idle
      · exact .reveal _
  | rebuild session revealed =>
      simp only [step]
      split
      · exact .idle
      · exact .rebuild session revealed _
  | close session =>
      simp only [step]
      split
      · exact .idle
      · exact .close session _
  | start request holdsWriteLock =>
      simp only [step]
      split
      · exact .idle
      · split
        · exact .idle
        · split
          · exact .openLane request holdsWriteLock _
          · split
            · exact .openLane request holdsWriteLock _
            · exact .idle
  | perform number events ok =>
      simp only [step]
      split
      · rename_i run slot
        split
        · rename_i cleared
          exact .perform number run events ok slot cleared
        · exact .idle
      · exact .idle
  | advance number =>
      simp only [step]
      split
      · rename_i run slot
        split
        · exact .idle
        · rename_i unchecked
          exact .advance number run (Bool.eq_false_iff.mpr unchecked)
      · exact .idle

end Shell

end Yggterm.AgentInput
