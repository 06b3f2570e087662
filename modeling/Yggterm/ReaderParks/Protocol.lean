import Mathlib.Algebra.Ring.Nat
import Mathlib.Data.List.Basic
import Yggterm.Library.Runs

/-!
# Parking a pty reader

`ReaderPark` and `ReaderGate` of `yggterm-server/src/terminal.rs`: the switch that stands the
reader thread of a session down, so that another process may read the pty.  The threads that
park and unpark, the reader, the shell and the other holder of the descriptor take their steps
in any order; a call of `park` or `unpark` is two steps, the store and the wake.
-/

namespace Yggterm.ReaderParks

open Runs

abbrev Bytes := List UInt8

/-- Where the reader thread is in its loop. -/
inductive Reader where
  /-- At the top of the loop in `wait`. -/
  | gate
  /-- Has loaded `parked`, and not stored it in `stood_down` yet. -/
  | loaded (parked : Bool)
  /-- In `poll`, over the wake descriptor and, unless it found itself parked, the pty. -/
  | polling (parked : Bool)
  /-- `poll` reported the wake descriptor. -/
  | draining
  /-- `wait` returned `Read`. -/
  | reading
  /-- The read returned, and `is_parked` is not asked yet. -/
  | counting (bytes : Nat)
  | finished
  deriving DecidableEq, Repr

structure State where
  parked : Bool
  stoodDown : Bool
  stolenAfterPark : Nat
  /-- The counter of the `eventfd`. -/
  wake : Nat
  /-- Calls of `park` and `unpark` that stored and have not written their wake yet. -/
  owed : Nat
  reader : Reader
  /-- What the kernel holds for whoever reads next. -/
  pending : Bytes
  hungUp : Bool
  /-- What this reader consumed. -/
  taken : Bytes
  /-- What the other holder of the descriptor consumed. -/
  inherited : Bytes
  /-- All that the shell wrote. -/
  written : Bytes
  deriving Repr

def initial : State :=
  { parked := false, stoodDown := false, stolenAfterPark := 0, wake := 0, owed := 0,
    reader := .gate, pending := [], hungUp := false, taken := [], inherited := [], written := [] }

/-- The size of the reader's buffer. -/
def bufferBytes : Nat := 8192

/-- The largest value that an `eventfd` counts to: a write past it fails. -/
def wakeCeiling : Nat := 2 ^ 64 - 2

/-- How the kernel answers the reader's call: a read gives at most `count` bytes. -/
inductive Answer where
  | ok (count : Nat)
  | interrupted
  | fails
  deriving DecidableEq, Repr

/-- The first half of `park` and of `unpark`. -/
def State.stores (state : State) (value : Bool) : State :=
  { state with parked := value, owed := state.owed + 1 }

/-- The second half: `wake`, best effort. -/
def State.wakes (state : State) : State :=
  if state.owed = 0 then state
  else
    { state with
      owed := state.owed - 1
      wake := if state.wake + 1 ≤ wakeCeiling then state.wake + 1 else state.wake }

def State.hasOutput (state : State) : Bool := state.pending ≠ [] || state.hungUp

/-- `poll` over both descriptors; the wake is looked at first. -/
def State.polls (state : State) (parked : Bool) : Answer → State
  | .interrupted => { state with reader := .gate }
  | .fails => { state with reader := .finished }
  | .ok _ =>
      if 0 < state.wake then { state with reader := .draining }
      else if !parked && state.hasOutput then { state with reader := .reading }
      else state

/-- How many bytes a read takes off what is pending. -/
def chunkLength (count : Nat) (pending : Bytes) : Nat :=
  min pending.length (min bufferBytes (max 1 count))

/-- The blocking read: nothing pending and no hangup leaves it waiting. -/
def State.reads (state : State) : Answer → State
  | .interrupted => { state with reader := .finished }
  | .fails => { state with reader := .finished }
  | .ok count =>
      if state.pending = [] then
        if state.hungUp then { state with reader := .finished } else state
      else
        let length := chunkLength count state.pending
        { state with
          reader := .counting length
          taken := state.taken ++ state.pending.take length
          pending := state.pending.drop length }

/-- One step of the reader thread.  Without both descriptors there is no gate, and `wait`
returns `Read` at once. -/
def State.readerSteps (gated : Bool) (state : State) (answer : Answer) : State :=
  match state.reader with
  | .gate => { state with reader := .loaded state.parked }
  | .loaded parked =>
      { state with stoodDown := parked, reader := if gated then .polling parked else .reading }
  | .polling parked => state.polls parked answer
  | .draining => { state with wake := 0, reader := .gate }
  | .reading => state.reads answer
  | .counting bytes =>
      { state with
        stolenAfterPark :=
          if state.parked then (state.stolenAfterPark + bytes) % 2 ^ 64 else state.stolenAfterPark
        reader := .gate }
  | .finished => state

/-- The other holder of the descriptor reads. -/
def State.inherits (state : State) (count : Nat) : State :=
  { state with
    inherited := state.inherited ++ state.pending.take count
    pending := state.pending.drop count }

inductive Action where
  | stores (value : Bool)
  | wakes
  | reader (answer : Answer)
  | writes (bytes : Bytes)
  | hangsUp
  | inherits (count : Nat)
  deriving DecidableEq, Repr

def step (gated : Bool) (state : State) : Action → State
  | .stores value => state.stores value
  | .wakes => state.wakes
  | .reader answer => state.readerSteps gated answer
  | .writes bytes =>
      { state with pending := state.pending ++ bytes, written := state.written ++ bytes }
  | .hangsUp => { state with hungUp := true }
  | .inherits count => state.inherits count

/-! ## What one step does -/

/-- The reader's steps, each with what it found. -/
inductive Does (gated : Bool) (state : State) : State → Prop where
  | loads : state.reader = .gate → Does gated state { state with reader := .loaded state.parked }
  | stores {parked : Bool} : state.reader = .loaded parked → Does gated state
      { state with stoodDown := parked, reader := if gated then .polling parked else .reading }
  | interrupts {parked : Bool} : state.reader = .polling parked →
      Does gated state { state with reader := .gate }
  | sees {parked : Bool} : state.reader = .polling parked → 0 < state.wake →
      Does gated state { state with reader := .draining }
  | reports : state.reader = .polling false → state.wake = 0 → state.hasOutput = true →
      Does gated state { state with reader := .reading }
  | drains : state.reader = .draining → Does gated state { state with wake := 0, reader := .gate }
  | takes {length : Nat} : state.reader = .reading → 0 < length → length ≤ bufferBytes →
      length ≤ state.pending.length → Does gated state
        { state with
          reader := .counting length
          taken := state.taken ++ state.pending.take length
          pending := state.pending.drop length }
  | counts {bytes : Nat} : state.reader = .counting bytes → Does gated state
      { state with
        stolenAfterPark :=
          if state.parked then (state.stolenAfterPark + bytes) % 2 ^ 64 else state.stolenAfterPark
        reader := .gate }
  | stops : (∃ parked, state.reader = .polling parked) ∨ state.reader = .reading →
      Does gated state { state with reader := .finished }
  | waits : state.reader = .finished ∨
      (state.reader = .reading ∧ state.pending = [] ∧ state.hungUp = false) ∨
      (∃ parked, state.reader = .polling parked ∧ state.wake = 0) → Does gated state state

theorem chunkLength_bounds (count : Nat) {pending : Bytes} (nonempty : pending ≠ []) :
    0 < chunkLength count pending ∧ chunkLength count pending ≤ bufferBytes ∧
      chunkLength count pending ≤ pending.length := by
  have positive := List.length_pos_iff.mpr nonempty
  unfold chunkLength bufferBytes
  omega

theorem does_polls (gated : Bool) {state : State} {parked : Bool}
    (isPolling : state.reader = .polling parked) (answer : Answer) :
    Does gated state (state.polls parked answer) := by
  cases answer with
  | interrupted => exact .interrupts isPolling
  | fails => exact .stops (.inl ⟨parked, isPolling⟩)
  | ok count =>
      rw [State.polls]
      split
      · next woken => exact .sees isPolling woken
      split
      · next ready =>
          rw [Bool.and_eq_true, Bool.not_eq_true'] at ready
          exact .reports (ready.1 ▸ isPolling) (by omega) ready.2
      · exact .waits (.inr (.inr ⟨parked, isPolling, by omega⟩))

theorem does_reads (gated : Bool) {state : State} (isReading : state.reader = .reading)
    (answer : Answer) : Does gated state (state.reads answer) := by
  cases answer with
  | interrupted => exact .stops (.inr isReading)
  | fails => exact .stops (.inr isReading)
  | ok count =>
      rw [State.reads]
      split
      · next empty =>
          split
          · exact .stops (.inr isReading)
          · next waiting => exact .waits (.inr (.inl ⟨isReading, empty, by simpa using waiting⟩))
      · next nonempty =>
          obtain ⟨positive, bounded, within⟩ := chunkLength_bounds count nonempty
          exact .takes isReading positive bounded within

theorem does_readerSteps (gated : Bool) (state : State) (answer : Answer) :
    Does gated state (state.readerSteps gated answer) := by
  unfold State.readerSteps
  split
  · next atGate => exact .loads atGate
  · next parked hasLoaded => exact .stores hasLoaded
  · next parked isPolling => exact does_polls gated isPolling answer
  · next isDraining => exact .drains isDraining
  · next isReading => exact does_reads gated isReading answer
  · next bytes isCounting => exact .counts isCounting
  · next isFinished => exact .waits (.inl isFinished)

/-! ## The last request is never overlooked -/

/-- The reader goes by what `parked` said before its last store. -/
def State.isStale (state : State) : Prop :=
  state.reader = .loaded (!state.parked) ∨ state.reader = .polling (!state.parked)

/-- A reader that goes by the old value has a wake before it: in the counter, or still owed. -/
def Announced (state : State) : Prop := state.isStale → 0 < state.wake ∨ 0 < state.owed

/-- A reader that goes by the old value has a wake in the counter. -/
def Woken (state : State) : Prop := state.isStale → 0 < state.wake

/-- With a gate, `stood_down` says what the reader goes by, and no reader consumes that stands
down. -/
structure Truthful (state : State) : Prop where
  polling : ∀ parked, state.reader = .polling parked → state.stoodDown = parked
  reading : state.reader = .reading → state.stoodDown = false
  counting : ∀ bytes, state.reader = .counting bytes → state.stoodDown = false

theorem wakes_wake (state : State) (owes : 0 < state.owed) : 0 < state.wakes.wake := by
  unfold State.wakes wakeCeiling
  rw [if_neg (by omega)]
  dsimp only
  split <;> omega

theorem wakes_spec (state : State) : ∃ wake owed, state.wakes = { state with wake, owed } ∧
    state.wake ≤ wake := by
  unfold State.wakes
  split
  · exact ⟨_, _, rfl, Nat.le_refl _⟩
  · exact ⟨_, _, rfl, by split <;> omega⟩

def Action.isReader : Action → Bool
  | .reader _ => true
  | _ => false

/-- Everybody else leaves alone what the reader writes. -/
theorem step_of_other (gated : Bool) (state : State) {action : Action}
    (isOther : action.isReader = false) :
    (step gated state action).reader = state.reader ∧
      (step gated state action).stoodDown = state.stoodDown ∧
      (step gated state action).stolenAfterPark = state.stolenAfterPark ∧
      (step gated state action).taken = state.taken := by
  cases action with
  | reader answer => cases isOther
  | wakes =>
      obtain ⟨wake, owed, isAfter, _⟩ := wakes_spec state
      change state.wakes.reader = _ ∧ state.wakes.stoodDown = _ ∧ state.wakes.stolenAfterPark = _ ∧
        state.wakes.taken = _
      rw [isAfter]
      exact ⟨rfl, rfl, rfl, rfl⟩
  | _ => exact ⟨rfl, rfl, rfl, rfl⟩

/-- The reader never becomes stale by its own step, nor drains the wake and stays stale. -/
theorem isStale_of_does {gated : Bool} {state after : State} (does : Does gated state after)
    (stale : after.isStale) :
    state.isStale ∧ after.wake = state.wake ∧ after.owed = state.owed := by
  cases does with
  | stores hasLoaded =>
      cases gated
      · simp [State.isStale] at stale
      · exact ⟨.inl (by simpa [State.isStale, hasLoaded] using stale), rfl, rfl⟩
  | waits _ => exact ⟨stale, rfl, rfl⟩
  | _ => simp [State.isStale] at stale

/-- Once a wake is written, it is in the counter. -/
theorem Announced.wakes {state : State} (announced : Announced state) : Woken state.wakes := by
  intro stale
  rcases Nat.eq_zero_or_pos state.owed with settled | owes
  · have same : state.wakes = state := by rw [State.wakes, if_pos settled]
    rw [same] at stale ⊢
    exact (announced stale).resolve_right (by omega)
  · exact wakes_wake state owes

theorem Announced.step {gated : Bool} {state : State} (announced : Announced state)
    (action : Action) : Announced (step gated state action) := by
  intro stale
  cases action with
  | stores value => exact .inr (Nat.succ_pos _)
  | wakes => exact .inl (announced.wakes stale)
  | reader answer =>
      obtain ⟨before, sameWake, sameOwed⟩ :=
        isStale_of_does (does_readerSteps gated state answer) stale
      exact (announced before).imp (sameWake ▸ ·) (sameOwed ▸ ·)
  | writes bytes => exact announced stale
  | hangsUp => exact announced stale
  | inherits count => exact announced stale

theorem announced_run (gated : Bool) (actions : List Action) :
    Announced (run (step gated) initial actions) := by
  refine run_invariant (fun state action announced => announced.step action) ?_ actions
  intro stale
  simp [State.isStale, initial] at stale

theorem Truthful.does {state after : State} (truthful : Truthful state)
    (does : Does true state after) : Truthful after := by
  cases does with
  | loads _ => constructor <;> simp
  | stores _ => constructor <;> simp
  | interrupts _ => constructor <;> simp
  | sees _ _ => constructor <;> simp
  | reports isPolling _ _ =>
      refine ⟨by simp, fun _ => truthful.polling false isPolling, by simp⟩
  | drains _ => constructor <;> simp
  | takes isReading _ _ _ => exact ⟨by simp, by simp, fun _ _ => truthful.reading isReading⟩
  | counts _ => constructor <;> simp
  | stops _ => constructor <;> simp
  | waits _ => exact truthful

theorem Truthful.step {state : State} (truthful : Truthful state) (action : Action) :
    Truthful (step true state action) := by
  cases isOther : action.isReader with
  | false =>
      obtain ⟨sameReader, sameFlag, _, _⟩ := step_of_other true state isOther
      constructor
      · simpa only [sameReader, sameFlag] using truthful.polling
      · simpa only [sameReader, sameFlag] using truthful.reading
      · simpa only [sameReader, sameFlag] using truthful.counting
  | true =>
      cases action with
      | reader answer => exact truthful.does (does_readerSteps true state answer)
      | _ => cases isOther

theorem truthful_run (actions : List Action) : Truthful (run (step true) initial actions) :=
  run_invariant (fun _ action truthful => truthful.step action) (by constructor <;> simp [initial])
    actions

/-! ## An acknowledged park -/

/-- A parked reader that consumes nothing until it is unparked. -/
structure AtRest (state : State) : Prop where
  parked : state.parked = true
  woken : Woken state
  notReading : state.reader ≠ .reading
  notCounting : ∀ bytes, state.reader ≠ .counting bytes

/-- What a step leaves of the bytes, while the reader is at rest. -/
def Passes (state after : State) : Prop :=
  after.taken = state.taken ∧ after.stolenAfterPark = state.stolenAfterPark ∧
    ∃ fresh, after.written = state.written ++ fresh ∧
      after.inherited ++ after.pending = state.inherited ++ state.pending ++ fresh

theorem Passes.of_same {state after : State} (taken : after.taken = state.taken)
    (stolen : after.stolenAfterPark = state.stolenAfterPark)
    (written : after.written = state.written) (inherited : after.inherited = state.inherited)
    (pending : after.pending = state.pending) : Passes state after :=
  ⟨taken, stolen, [], by simp [written], by simp [inherited, pending]⟩

theorem Passes.trans {first second third : State} (before : Passes first second)
    (after : Passes second third) : Passes first third := by
  obtain ⟨taken, stolen, fresh, written, passed⟩ := before
  obtain ⟨taken', stolen', fresh', written', passed'⟩ := after
  refine ⟨taken'.trans taken, stolen'.trans stolen, fresh ++ fresh', ?_, ?_⟩
  · rw [written', written, List.append_assoc]
  · rw [passed', passed, List.append_assoc, List.append_assoc]

theorem AtRest.does {state after : State} (atRest : AtRest state) (does : Does true state after) :
    AtRest after ∧ Passes state after := by
  have woken : Woken after := fun stale => by
    obtain ⟨before, sameWake, _⟩ := isStale_of_does does stale
    exact sameWake ▸ atRest.woken before
  cases does with
  | reports isPolling noWake _ =>
      have pending := atRest.woken (.inr (by rw [isPolling, atRest.parked, Bool.not_true]))
      omega
  | takes isReading _ _ _ => exact absurd isReading atRest.notReading
  | counts isCounting => exact absurd isCounting (atRest.notCounting _)
  | waits _ => exact ⟨atRest, .of_same rfl rfl rfl rfl rfl⟩
  | _ =>
      exact ⟨⟨atRest.parked, woken, by simp, by simp⟩, .of_same rfl rfl rfl rfl rfl⟩

theorem atRest_step {state : State} (atRest : AtRest state) {action : Action}
    (kept : action ≠ .stores false) :
    AtRest (step true state action) ∧ Passes state (step true state action) := by
  cases action with
  | stores value =>
      cases value with
      | false => exact absurd rfl kept
      | true =>
          refine ⟨⟨rfl, ?_, atRest.notReading, atRest.notCounting⟩, .of_same rfl rfl rfl rfl rfl⟩
          intro stale
          apply atRest.woken
          simpa [State.isStale, atRest.parked, step, State.stores] using stale
  | wakes =>
      obtain ⟨wake, owed, isAfter, grows⟩ := wakes_spec state
      change AtRest state.wakes ∧ Passes state state.wakes
      rw [isAfter]
      refine ⟨⟨atRest.parked, ?_, atRest.notReading, atRest.notCounting⟩,
        .of_same rfl rfl rfl rfl rfl⟩
      exact fun stale => Nat.lt_of_lt_of_le (atRest.woken stale) grows
  | reader answer => exact atRest.does (does_readerSteps true state answer)
  | writes bytes =>
      refine ⟨⟨atRest.parked, atRest.woken, atRest.notReading, atRest.notCounting⟩, ?_⟩
      exact ⟨rfl, rfl, bytes, rfl, by simp [step]⟩
  | hangsUp =>
      exact ⟨⟨atRest.parked, atRest.woken, atRest.notReading, atRest.notCounting⟩,
        .of_same rfl rfl rfl rfl rfl⟩
  | inherits count =>
      refine ⟨⟨atRest.parked, atRest.woken, atRest.notReading, atRest.notCounting⟩, ?_⟩
      exact ⟨rfl, rfl, [], by simp [step, State.inherits], by simp [step, State.inherits]⟩

theorem atRest_run {state : State} (atRest : AtRest state) {actions : List Action}
    (kept : .stores false ∉ actions) :
    AtRest (run (step true) state actions) ∧ Passes state (run (step true) state actions) := by
  induction actions generalizing state with
  | nil => exact ⟨atRest, .of_same rfl rfl rfl rfl rfl⟩
  | cons action rest inductionHypothesis =>
      obtain ⟨notUnpark, restKept⟩ := not_or.mp (mt List.mem_cons.mpr kept)
      obtain ⟨stillAtRest, passes⟩ := atRest_step atRest (Ne.symm notUnpark)
      obtain ⟨finallyAtRest, restPasses⟩ := inductionHypothesis stillAtRest restKept
      exact ⟨finallyAtRest, passes.trans restPasses⟩

/-- What the shell wrote was consumed here, or is pending, until the other holder reads. -/
def Conserved (state : State) : Prop :=
  state.inherited = [] → state.written = state.taken ++ state.pending

theorem Conserved.does {gated : Bool} {state after : State} (conserved : Conserved state)
    (does : Does gated state after) : Conserved after := by
  cases does with
  | takes _ _ _ _ =>
      intro untouched
      change state.written = state.taken ++ state.pending.take _ ++ state.pending.drop _
      rw [List.append_assoc, List.take_append_drop]
      exact conserved untouched
  | _ => exact conserved

theorem conserved_step (gated : Bool) {state : State} (conserved : Conserved state)
    (action : Action) : Conserved (step gated state action) := by
  cases action with
  | stores value => exact conserved
  | wakes =>
      obtain ⟨wake, owed, isAfter, _⟩ := wakes_spec state
      change Conserved state.wakes
      rw [isAfter]
      exact conserved
  | reader answer => exact conserved.does (does_readerSteps gated state answer)
  | writes bytes =>
      intro untouched
      change state.written ++ bytes = state.taken ++ (state.pending ++ bytes)
      rw [conserved untouched, List.append_assoc]
  | hangsUp => exact conserved
  | inherits count =>
      intro untouched
      obtain ⟨none, nothing⟩ := List.append_eq_nil_iff.mp untouched
      change state.written = state.taken ++ state.pending.drop count
      have split := List.take_append_drop count state.pending
      rw [nothing, List.nil_append] at split
      rw [split, conserved none]

theorem conserved_run (gated : Bool) (actions : List Action) :
    Conserved (run (step gated) initial actions) := by
  have preserved : ∀ state action, Conserved state → Conserved (step gated state action) :=
    fun _ action conserved => conserved_step gated conserved action
  have initially : Conserved initial := fun _ => rfl
  exact run_invariant preserved initially actions

theorem parked_of_does {gated : Bool} {state after : State} (does : Does gated state after) :
    after.parked = state.parked := by
  cases does <;> rfl

/-- A request that was announced, and that no later one has taken back. -/
structure Asked (value : Bool) (state : State) : Prop where
  parked : state.parked = value
  woken : Woken state

theorem asked_step {gated : Bool} {value : Bool} {state : State} (asked : Asked value state)
    {action : Action} (kept : action ≠ .stores (!value)) :
    Asked value (step gated state action) := by
  cases action with
  | stores stored =>
      obtain rfl : stored = value := by
        cases stored <;> cases value <;> simp at kept ⊢
      refine ⟨rfl, fun stale => asked.woken ?_⟩
      simpa [State.isStale, asked.parked, step, State.stores] using stale
  | wakes =>
      obtain ⟨wake, owed, isAfter, grows⟩ := wakes_spec state
      change Asked value state.wakes
      rw [isAfter]
      exact ⟨asked.parked, fun stale => Nat.lt_of_lt_of_le (asked.woken stale) grows⟩
  | reader answer =>
      have does := does_readerSteps gated state answer
      refine ⟨(parked_of_does does).trans asked.parked, fun stale => ?_⟩
      obtain ⟨before, sameWake, _⟩ := isStale_of_does does stale
      change 0 < (state.readerSteps gated answer).wake
      rw [sameWake]
      exact asked.woken before
  | writes bytes => exact ⟨asked.parked, asked.woken⟩
  | hangsUp => exact ⟨asked.parked, asked.woken⟩
  | inherits count => exact ⟨asked.parked, asked.woken⟩

theorem asked_run {gated : Bool} {value : Bool} {state : State} (asked : Asked value state)
    {actions : List Action} (kept : .stores (!value) ∉ actions) :
    Asked value (run (step gated) state actions) := by
  induction actions generalizing state with
  | nil => exact asked
  | cons action rest inductionHypothesis =>
      obtain ⟨notOther, restKept⟩ := not_or.mp (mt List.mem_cons.mpr kept)
      exact inductionHypothesis (asked_step asked (Ne.symm notOther)) restKept

theorem parked_run {gated : Bool} {value : Bool} {state : State} (isParked : state.parked = value)
    {actions : List Action} (kept : .stores (!value) ∉ actions) :
    (run (step gated) state actions).parked = value := by
  induction actions generalizing state with
  | nil => exact isParked
  | cons action rest inductionHypothesis =>
      obtain ⟨notOther, restKept⟩ := not_or.mp (mt List.mem_cons.mpr kept)
      refine inductionHypothesis ?_ restKept
      cases action with
      | stores stored =>
          change stored = value
          cases stored <;> cases value <;> simp at notOther ⊢
      | wakes =>
          obtain ⟨wake, owed, isAfter, _⟩ := wakes_spec state
          exact (congrArg State.parked isAfter).trans isParked
      | reader answer => exact (parked_of_does (does_readerSteps gated state answer)).trans isParked
      | writes bytes => exact isParked
      | hangsUp => exact isParked
      | inherits count => exact isParked

/-- A run in which one call stores the value and, later, writes its wake. -/
def calls (value : Bool) (before middle after : List Action) : List Action :=
  before ++ .stores value :: (middle ++ .wakes :: after)

/-- The call has returned and nobody asked otherwise since. -/
theorem asked_calls (gated value : Bool) (before : List Action) {middle after : List Action}
    (kept : .stores (!value) ∉ middle ++ after) :
    Asked value (run (step gated) initial (calls value before middle after)) := by
  obtain ⟨middleKept, afterKept⟩ := not_or.mp (mt List.mem_append.mpr kept)
  have announced := announced_run gated (before ++ .stores value :: middle)
  have isParked :
      (run (step gated) initial (before ++ .stores value :: middle)).parked = value := by
    rw [run_append, run_cons]
    exact parked_run rfl middleKept
  have split : calls value before middle after =
      (before ++ .stores value :: middle) ++ .wakes :: after := by
    simp [calls]
  rw [split, run_append, run_cons]
  refine asked_run ⟨?_, announced.wakes⟩ afterKept
  obtain ⟨wake, owed, isAfter, _⟩ :=
    wakes_spec (run (step gated) initial (before ++ .stores value :: middle))
  exact (congrArg State.parked isAfter).trans isParked

/-- From one state to a later one the stream changes hands whole: nothing more is consumed here, and
what the other holder finds begins where this reader stopped. -/
structure CleanCut (asked final : State) : Prop where
  passes : Passes asked final
  whole : asked.inherited = [] → final.written = final.taken ++ final.inherited ++ final.pending

/-- When `park` has returned and the reader has then been seen standing down, it consumes
nothing until the next `unpark`, whoever moves and however often: the bytes pending then and all
that the shell writes later go to the other holder, in order, and where that one had consumed
nothing before, nothing is lost or out of order at the cut. -/
theorem acknowledged_park_is_clean (before middle after later : List Action)
    (kept : .stores false ∉ middle ++ after ++ later)
    (stoodDown :
      (run (step true) initial (calls true before middle after)).stoodDown = true) :
    CleanCut (run (step true) initial (calls true before middle after))
      (run (step true) initial (calls true before middle after ++ later)) := by
  obtain ⟨callKept, laterKept⟩ := not_or.mp (mt List.mem_append.mpr kept)
  have asked := asked_calls true true before callKept
  have truthful := truthful_run (calls true before middle after)
  have conserved := conserved_run true (calls true before middle after)
  rw [run_append]
  generalize run (step true) initial (calls true before middle after) = state at *
  have atRest : AtRest state := by
    refine ⟨asked.parked, asked.woken, fun isReading => ?_, fun bytes isCounting => ?_⟩
    · exact Bool.noConfusion (stoodDown.symm.trans (truthful.reading isReading))
    · exact Bool.noConfusion (stoodDown.symm.trans (truthful.counting bytes isCounting))
  obtain ⟨_, passes⟩ := atRest_run atRest laterKept
  refine ⟨passes, fun untouched => ?_⟩
  obtain ⟨taken, _, fresh, written, passed⟩ := passes
  rw [untouched, List.nil_append] at passed
  rw [written, conserved untouched, taken, List.append_assoc, List.append_assoc, passed]

/-- A parked reader acknowledges, the shell writes on, and the other holder reads. -/
theorem acknowledged_park_is_clean_of_prompt :
    CleanCut
      (run (step true) initial
        (calls true [.writes [0x24]] [] [.reader (.ok 1), .reader (.ok 1)]))
      (run (step true) initial
        (calls true [.writes [0x24]] [] [.reader (.ok 1), .reader (.ok 1)] ++
          [.reader (.ok 1), .writes [0x6c], .inherits 2])) :=
  acknowledged_park_is_clean [.writes [0x24]] [] [.reader (.ok 1), .reader (.ok 1)]
    [.reader (.ok 1), .writes [0x6c], .inherits 2] (by decide) (by decide)

end Yggterm.ReaderParks
