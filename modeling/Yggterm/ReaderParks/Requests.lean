import Yggterm.ReaderParks.Protocol

/-!
# What a request comes to

What a reader still consumes after a park was stored, how soon it answers the last request, and
what parking comes to on a session without a gate.
-/

namespace Yggterm.ReaderParks

open Runs

/-! ## What slips through before the acknowledgement -/

/-- Bytes read and not yet looked at. -/
def Reader.inHand : Reader → Nat
  | .counting bytes => bytes
  | _ => 0

/-- The reader may still read before it loads `parked` again. -/
def Reader.mayRead : Reader → Bool
  | .loaded parked => !parked
  | .polling parked => !parked
  | .reading => true
  | _ => false

theorem inHand_le_of_does {gated : Bool} {state after : State} (does : Does gated state after)
    (bounded : state.reader.inHand ≤ bufferBytes) : after.reader.inHand ≤ bufferBytes := by
  cases does with
  | stores _ => cases gated <;> exact Nat.zero_le _
  | takes _ _ within _ => exact within
  | waits _ => exact bounded
  | _ => exact Nat.zero_le _

theorem inHand_le_run (gated : Bool) (actions : List Action) :
    (run (step gated) initial actions).reader.inHand ≤ bufferBytes := by
  refine @run_invariant _ _ (step gated) (fun state => state.reader.inHand ≤ bufferBytes) ?_ _
    (Nat.zero_le _) actions
  intro state action bounded
  cases isOther : action.isReader with
  | false => exact (step_of_other gated state isOther).1 ▸ bounded
  | true =>
      cases action with
      | reader answer => exact inHand_le_of_does (does_readerSteps gated state answer) bounded
      | _ => cases isOther

/-- What a parked reader has consumed since it was in the given state. -/
structure Slipped (asked state : State) (chunk : Bytes) : Prop where
  parked : state.parked = true
  taken : state.taken = asked.taken ++ chunk
  bounded : asked.reader.inHand + chunk.length ≤ bufferBytes
  counted : (state.stolenAfterPark + state.reader.inHand) % 2 ^ 64 =
    (asked.stolenAfterPark + asked.reader.inHand + chunk.length) % 2 ^ 64
  once : state.reader.mayRead = true →
    asked.reader.inHand + chunk.length = 0 ∧ state.reader.inHand = 0

/-- A step that consumes nothing and gets nothing past the gate. -/
theorem Slipped.idles {asked state after : State} {chunk : Bytes}
    (slipped : Slipped asked state chunk) (parked : after.parked = state.parked)
    (taken : after.taken = state.taken) (stolen : after.stolenAfterPark = state.stolenAfterPark)
    (inHand : after.reader.inHand = state.reader.inHand)
    (mayRead : after.reader.mayRead = true → state.reader.mayRead = true) :
    Slipped asked after chunk where
  parked := parked.trans slipped.parked
  taken := taken.trans slipped.taken
  bounded := slipped.bounded
  counted := by rw [stolen, inHand, slipped.counted]
  once reads := by
    rw [inHand]
    exact slipped.once (mayRead reads)

theorem Slipped.does {asked state after : State} {chunk : Bytes}
    (slipped : Slipped asked state chunk) (does : Does true state after) :
    ∃ chunk, Slipped asked after chunk := by
  cases does with
  | loads atGate =>
      refine ⟨chunk, slipped.idles rfl rfl rfl (by rw [atGate]; rfl) ?_⟩
      simp [Reader.mayRead, slipped.parked]
  | stores hasLoaded =>
      refine ⟨chunk, slipped.idles rfl rfl rfl (by rw [hasLoaded]; rfl) ?_⟩
      rw [hasLoaded]
      exact id
  | interrupts isPolling =>
      exact ⟨chunk, slipped.idles rfl rfl rfl (by rw [isPolling]; rfl) nofun⟩
  | sees isPolling _ => exact ⟨chunk, slipped.idles rfl rfl rfl (by rw [isPolling]; rfl) nofun⟩
  | reports isPolling _ _ =>
      refine ⟨chunk, slipped.idles rfl rfl rfl (by rw [isPolling]; rfl) ?_⟩
      rw [isPolling]
      exact id
  | drains isDraining => exact ⟨chunk, slipped.idles rfl rfl rfl (by rw [isDraining]; rfl) nofun⟩
  | @takes length isReading positive within available =>
      obtain ⟨nothing, _⟩ := slipped.once (by simp [Reader.mayRead, isReading])
      have counted := slipped.counted
      obtain rfl : chunk = [] := List.length_eq_zero_iff.mp (by omega)
      have isLength : (state.pending.take length).length = length := by simp [available]
      refine ⟨state.pending.take length, slipped.parked, ?_, ?_, ?_, ?_⟩
      · simp [slipped.taken]
      · rw [isLength]
        omega
      · simp only [Reader.inHand, isReading, List.length_nil] at counted nothing ⊢
        rw [isLength]
        omega
      · simp [Reader.mayRead]
  | counts isCounting =>
      refine ⟨chunk, slipped.parked, slipped.taken, slipped.bounded, ?_, ?_⟩
      · have counted := slipped.counted
        simp only [Reader.inHand, isCounting, slipped.parked, if_true] at counted ⊢
        omega
      · simp [Reader.mayRead]
  | stops stopping =>
      refine ⟨chunk, slipped.idles rfl rfl rfl ?_ nofun⟩
      rcases stopping with ⟨parked, isPolling⟩ | isReading
      · rw [isPolling]
        rfl
      · rw [isReading]
        rfl
  | waits _ => exact ⟨chunk, slipped⟩

theorem slipped_run {asked state : State} {chunk : Bytes} (slipped : Slipped asked state chunk)
    {actions : List Action} (kept : .stores false ∉ actions) :
    ∃ chunk, Slipped asked (run (step true) state actions) chunk := by
  induction actions generalizing state chunk with
  | nil => exact ⟨chunk, slipped⟩
  | cons action rest inductionHypothesis =>
      obtain ⟨notUnpark, restKept⟩ := not_or.mp (mt List.mem_cons.mpr kept)
      suffices next : ∃ chunk, Slipped asked (step true state action) chunk by
        obtain ⟨chunk, stillSlipped⟩ := next
        exact inductionHypothesis stillSlipped restKept
      cases isOther : action.isReader with
      | false =>
          obtain ⟨sameReader, _, sameStolen, sameTaken⟩ := step_of_other true state isOther
          have alone : .stores (!true) ∉ [action] := by simpa using notUnpark
          have isParked : (step true state action).parked = true := parked_run slipped.parked alone
          refine ⟨chunk, isParked, sameTaken.trans slipped.taken, slipped.bounded, ?_, ?_⟩
          · rw [sameStolen, sameReader]
            exact slipped.counted
          · rw [sameReader]
            exact slipped.once
      | true =>
          cases action with
          | reader answer => exact slipped.does (does_readerSteps true state answer)
          | _ => cases isOther

/-- From the moment `park` stores its request, acknowledged or not and its wake written or not,
the reader consumes at most one more chunk before it stands down for as long as the request
holds, and all of it is counted: the counter has grown by what was consumed since, and by the
chunk that was in hand, once nothing is in hand. -/
theorem park_lets_one_chunk_through (before later : List Action) (kept : .stores false ∉ later) :
    ∃ chunk, Slipped (run (step true) initial (before ++ [.stores true]))
      (run (step true) initial (before ++ .stores true :: later)) chunk := by
  have bounded := inHand_le_run true before
  rw [run_append, run_append, run_cons, run_cons, run_nil]
  generalize run (step true) initial before = state at *
  have nothing : Slipped (step true state (.stores true)) (step true state (.stores true)) [] := by
    refine ⟨rfl, by simp, ?_, rfl, ?_⟩
    · simpa [step, State.stores] using bounded
    · intro mayRead
      change state.reader.mayRead = true at mayRead
      change state.reader.inHand + 0 = 0 ∧ state.reader.inHand = 0
      cases isReader : state.reader <;> simp [Reader.mayRead, Reader.inHand, isReader] at mayRead ⊢
  exact slipped_run nothing kept

/-- The park lands between the poll and the read. -/
theorem park_lets_one_chunk_through_of_race :
    ∃ chunk, Slipped
      (run (step true) initial ([.writes [0x24, 0x20], .reader (.ok 1), .reader (.ok 1),
        .reader (.ok 1)] ++ [.stores true]))
      (run (step true) initial ([.writes [0x24, 0x20], .reader (.ok 1), .reader (.ok 1),
        .reader (.ok 1)] ++ .stores true :: [.reader (.ok 1), .wakes, .reader (.ok 1)])) chunk :=
  park_lets_one_chunk_through [.writes [0x24, 0x20], .reader (.ok 1), .reader (.ok 1),
    .reader (.ok 1)] [.reader (.ok 1), .wakes, .reader (.ok 1)] (by decide)

/-! ## The acknowledgement comes -/

/-- How many steps the reader has before it that lead it to say `value`. -/
def Reader.distance (value : Bool) : Reader → Nat
  | .gate => 2
  | .loaded parked => if parked = value then 1 else 5
  | .polling parked => if parked = value then 0 else 4
  | .draining => 3
  | .reading => if value then 4 else 0
  | .counting _ => if value then 3 else 0
  | .finished => 0

/-- The reader, which says so, goes by the value. -/
def Reader.goesBy (value : Bool) : Reader → Bool
  | .loaded parked => parked = value
  | .polling parked => parked = value
  | .reading => !value
  | .counting _ => !value
  | _ => true

def stepsLeft (value stoodDown : Bool) (reader : Reader) : Nat :=
  if stoodDown = value && reader.goesBy value then 0 else reader.distance value

theorem stepsLeft_le (value stoodDown : Bool) (reader : Reader) :
    stepsLeft value stoodDown reader ≤ 5 := by
  unfold stepsLeft Reader.distance
  split
  · exact Nat.zero_le _
  · split <;> (try split) <;> omega

/-- A reader with no steps left says what it was asked to, or is gone. -/
theorem stoodDown_of_stepsLeft {value : Bool} {state : State} (truthful : Truthful state)
    (arrived : stepsLeft value state.stoodDown state.reader = 0) :
    state.stoodDown = value ∨ state.reader = .finished := by
  unfold stepsLeft at arrived
  split at arrived
  · next answers => exact .inl (of_decide_eq_true (Bool.and_eq_true_iff.mp answers).1)
  cases isReader : state.reader with
  | gate => simp [isReader, Reader.distance] at arrived
  | loaded parked =>
      rw [isReader, Reader.distance] at arrived
      split at arrived <;> omega
  | polling parked =>
      rw [isReader, Reader.distance] at arrived
      split at arrived
      · next same => exact .inl (same ▸ truthful.polling parked isReader)
      · omega
  | draining => simp [isReader, Reader.distance] at arrived
  | reading =>
      cases value
      · exact .inl (truthful.reading isReader)
      · simp [isReader, Reader.distance] at arrived
  | counting bytes =>
      cases value
      · exact .inl (truthful.counting bytes isReader)
      · simp [isReader, Reader.distance] at arrived
  | finished => exact .inr rfl

/-- No read of the reader's own is left waiting. -/
def Unblocked (state : State) : Prop := state.reader = .reading → state.hasOutput = true

theorem stepsLeft_does {value : Bool} {state after : State} (asked : Asked value state)
    (truthful : Truthful state) (unblocked : value = true → Unblocked state)
    (does : Does true state after) :
    stepsLeft value after.stoodDown after.reader ≤
      stepsLeft value state.stoodDown state.reader - 1 := by
  cases does with
  | loads atGate =>
      dsimp only
      rw [atGate, asked.parked]
      cases state.stoodDown <;> cases value <;> decide
  | @stores parked hasLoaded =>
      dsimp only
      rw [hasLoaded, if_pos rfl]
      cases state.stoodDown <;> cases parked <;> cases value <;> decide
  | @interrupts parked isPolling =>
      dsimp only
      rw [isPolling, truthful.polling parked isPolling]
      cases parked <;> cases value <;> decide
  | @sees parked isPolling _ =>
      dsimp only
      rw [isPolling, truthful.polling parked isPolling]
      cases parked <;> cases value <;> decide
  | reports isPolling noWake _ =>
      cases value with
      | false =>
          dsimp only
          rw [isPolling, truthful.polling false isPolling]
          decide
      | true =>
          have woken := asked.woken (.inr (by rw [isPolling, asked.parked, Bool.not_true]))
          omega
  | drains isDraining =>
      dsimp only
      rw [isDraining]
      cases state.stoodDown <;> cases value <;> decide
  | takes isReading _ _ _ =>
      dsimp only
      rw [isReading, truthful.reading isReading]
      cases value <;> simp [stepsLeft, Reader.goesBy, Reader.distance]
  | counts isCounting =>
      dsimp only
      rw [isCounting, truthful.counting _ isCounting]
      cases value <;> simp [stepsLeft, Reader.goesBy, Reader.distance]
  | stops stopping => simp [stepsLeft, Reader.distance]
  | waits waiting =>
      rcases waiting with isFinished | ⟨isReading, empty, isOpen⟩ | ⟨parked, isPolling, noWake⟩
      · rw [isFinished]
        simp [stepsLeft, Reader.distance]
      · rw [isReading, truthful.reading isReading]
        cases value with
        | false => decide
        | true =>
            have output := unblocked rfl isReading
            simp [State.hasOutput, empty, isOpen] at output
      · rw [isPolling, truthful.polling parked isPolling]
        by_cases same : parked = value
        · subst same
          cases parked <;> decide
        · have isOther := Bool.eq_not.mpr same
          have woken := asked.woken (.inr (by rw [isPolling, asked.parked, isOther]))
          omega

theorem Unblocked.does {state after : State} (unblocked : Unblocked state)
    (does : Does true state after) : Unblocked after := by
  cases does with
  | reports _ _ ready => exact fun _ => ready
  | waits _ => exact unblocked
  | _ => intro isReading; simp at isReading

def Action.isInherits : Action → Bool
  | .inherits _ => true
  | _ => false

/-- Only the other holder can take away what `poll` reported. -/
theorem unblocked_step {state : State} (unblocked : Unblocked state) {action : Action}
    (alone : action.isInherits = false) : Unblocked (step true state action) := by
  cases action with
  | stores value => exact unblocked
  | wakes =>
      obtain ⟨wake, owed, isAfter, _⟩ := wakes_spec state
      change Unblocked state.wakes
      rw [isAfter]
      exact unblocked
  | reader answer => exact unblocked.does (does_readerSteps true state answer)
  | writes bytes =>
      intro isReading
      have ready := unblocked isReading
      simp only [State.hasOutput, ne_eq, decide_not, Bool.or_eq_true, Bool.not_eq_eq_eq_not,
        Bool.not_true, decide_eq_false_iff_not] at ready
      rcases ready with nonempty | hungUp
      · simp [State.hasOutput, step, nonempty]
      · simp [State.hasOutput, step, hungUp]
  | hangsUp => exact fun _ => by simp [State.hasOutput, step]
  | inherits count => cases alone

theorem unblocked_run {state : State} (unblocked : Unblocked state) {actions : List Action}
    (alone : ∀ action ∈ actions, action.isInherits = false) :
    Unblocked (run (step true) state actions) := by
  induction actions generalizing state with
  | nil => exact unblocked
  | cons action rest inductionHypothesis =>
      obtain ⟨firstAlone, restAlone⟩ := List.forall_mem_cons.mp alone
      exact inductionHypothesis (unblocked_step unblocked firstAlone) restAlone

/-- The reader's own steps bring it nearer to the answer, and nobody else's take it back. -/
theorem stepsLeft_run {value : Bool} {state : State} (asked : Asked value state)
    (truthful : Truthful state) (unblocked : value = true → Unblocked state) {actions : List Action}
    (kept : .stores (!value) ∉ actions)
    (alone : value = true → ∀ action ∈ actions, action.isInherits = false) :
    stepsLeft value (run (step true) state actions).stoodDown
        (run (step true) state actions).reader ≤
      stepsLeft value state.stoodDown state.reader - actions.countP Action.isReader := by
  induction actions generalizing state with
  | nil => simp
  | cons action rest inductionHypothesis =>
      obtain ⟨notOther, restKept⟩ := not_or.mp (mt List.mem_cons.mpr kept)
      have firstAlone := fun isPark => (List.forall_mem_cons.mp (alone isPark)).1
      have restAlone := fun isPark => (List.forall_mem_cons.mp (alone isPark)).2
      have onward := inductionHypothesis (asked_step asked (Ne.symm notOther))
        (truthful.step action)
        (fun isPark => unblocked_step (unblocked isPark) (firstAlone isPark)) restKept restAlone
      rw [run_cons, List.countP_cons]
      cases isOther : action.isReader with
      | false =>
          obtain ⟨sameReader, sameFlag, _, _⟩ := step_of_other true state isOther
          rw [sameReader, sameFlag] at onward
          simpa using onward
      | true =>
          cases action with
          | reader answer =>
              have nearer :=
                stepsLeft_does asked truthful unblocked (does_readerSteps true state answer)
              change stepsLeft value (step true state (.reader answer)).stoodDown
                (step true state (.reader answer)).reader ≤ _ at nearer
              rw [if_pos rfl]
              omega
          | _ => cases isOther

def Action.isRequest : Action → Bool
  | .stores _ => true
  | .wakes => true
  | _ => false

/-- The reader is nowhere in the gate's own part of the loop. -/
def Reader.isUngated : Reader → Bool
  | .polling _ => false
  | .draining => false
  | _ => true

/-- States that differ in nothing but the park's own switches, where there is no gate. -/
structure Alike (state other : State) : Prop where
  ungated : state.reader.isUngated = true
  reader : state.reader = other.reader ∨
    ∃ parked otherParked, state.reader = .loaded parked ∧ other.reader = .loaded otherParked
  pending : state.pending = other.pending
  hungUp : state.hungUp = other.hungUp
  taken : state.taken = other.taken
  inherited : state.inherited = other.inherited
  written : state.written = other.written

theorem Alike.stepped {state other : State} (alike : Alike state other) {reader : Reader}
    (ungated : reader.isUngated = true) (stoodDown otherStoodDown : Bool) :
    Alike { state with stoodDown, reader } { other with stoodDown := otherStoodDown, reader } :=
  ⟨ungated, .inl rfl, alike.pending, alike.hungUp, alike.taken, alike.inherited, alike.written⟩

theorem Alike.reads {state other : State} (alike : Alike state other) (answer : Answer) :
    Alike (state.reads answer) (other.reads answer) := by
  cases answer with
  | interrupted => exact alike.stepped rfl _ _
  | fails => exact alike.stepped rfl _ _
  | ok count =>
      simp only [State.reads, alike.pending, alike.hungUp, alike.taken, alike.inherited,
        alike.written]
      split
      · split
        · exact ⟨rfl, .inl rfl, rfl, rfl, rfl, rfl, rfl⟩
        · exact alike
      · exact ⟨rfl, .inl rfl, rfl, rfl, rfl, rfl, rfl⟩

theorem Alike.readerSteps {state other : State} (alike : Alike state other) (answer : Answer) :
    Alike (state.readerSteps false answer) (other.readerSteps false answer) := by
  rcases alike.reader with same | ⟨parked, otherParked, hasLoaded, otherLoaded⟩
  · unfold State.readerSteps
    rw [← same]
    cases isReader : state.reader with
    | gate =>
        exact ⟨rfl, .inr ⟨_, _, rfl, rfl⟩, alike.pending, alike.hungUp, alike.taken,
          alike.inherited, alike.written⟩
    | loaded parked => exact alike.stepped rfl _ _
    | polling parked => simpa [isReader, Reader.isUngated] using alike.ungated
    | draining => simpa [isReader, Reader.isUngated] using alike.ungated
    | reading => exact alike.reads answer
    | counting bytes =>
        exact ⟨rfl, .inl rfl, alike.pending, alike.hungUp, alike.taken, alike.inherited,
          alike.written⟩
    | finished => exact alike
  · rw [State.readerSteps, State.readerSteps, hasLoaded, otherLoaded]
    exact alike.stepped rfl _ _

theorem alike_step {state other : State} (alike : Alike state other) {action : Action}
    (isOther : action.isRequest = false) :
    Alike (step false state action) (step false other action) := by
  cases action with
  | stores value => cases isOther
  | wakes => cases isOther
  | reader answer => exact alike.readerSteps answer
  | writes bytes =>
      refine ⟨alike.ungated, alike.reader, ?_, alike.hungUp, alike.taken, alike.inherited, ?_⟩
      · change state.pending ++ bytes = other.pending ++ bytes
        rw [alike.pending]
      · change state.written ++ bytes = other.written ++ bytes
        rw [alike.written]
  | hangsUp =>
      exact ⟨alike.ungated, alike.reader, alike.pending, rfl, alike.taken, alike.inherited,
        alike.written⟩
  | inherits count =>
      refine ⟨alike.ungated, alike.reader, ?_, alike.hungUp, alike.taken, ?_, alike.written⟩
      · change state.pending.drop count = other.pending.drop count
        rw [alike.pending]
      · change state.inherited ++ state.pending.take count =
          other.inherited ++ other.pending.take count
        rw [alike.pending, alike.inherited]

theorem alike_request {state other : State} (alike : Alike state other) {action : Action}
    (isRequest : action.isRequest = true) : Alike (step false state action) other := by
  cases action with
  | stores value =>
      exact ⟨alike.ungated, alike.reader, alike.pending, alike.hungUp, alike.taken, alike.inherited,
        alike.written⟩
  | wakes =>
      obtain ⟨wake, owed, isAfter, _⟩ := wakes_spec state
      change Alike state.wakes other
      rw [isAfter]
      exact ⟨alike.ungated, alike.reader, alike.pending, alike.hungUp, alike.taken, alike.inherited,
        alike.written⟩
  | _ => cases isRequest

theorem alike_run {state other : State} (alike : Alike state other) (actions : List Action) :
    Alike (run (step false) state actions)
      (run (step false) other (actions.filter (!·.isRequest))) := by
  induction actions generalizing state other with
  | nil => exact alike
  | cons action rest inductionHypothesis =>
      cases isRequest : action.isRequest with
      | true =>
          rw [List.filter_cons_of_neg (by simp [isRequest])]
          exact inductionHypothesis (alike_request alike isRequest)
      | false =>
          rw [List.filter_cons_of_pos (by simp [isRequest])]
          exact inductionHypothesis (alike_step alike isRequest)

/-- On a session that has no gate, because a descriptor could not be made, parking is nothing but
a flag: whoever parks and unparks and when, the same bytes go to the same readers as if nobody
had, although `has_stood_down` says that the reader stands down once it goes round again. -/
theorem park_without_gate_changes_no_byte (actions : List Action) :
    Alike (run (step false) initial actions)
        (run (step false) initial (actions.filter (!·.isRequest))) ∧
      ((run (step false) initial actions).reader = .gate → ∀ first second,
        (run (step false) initial (actions ++
          [.stores true, .wakes, .reader first, .reader second])).stoodDown = true) := by
  refine ⟨alike_run ⟨rfl, .inl rfl, rfl, rfl, rfl, rfl, rfl⟩ actions, fun atGate first second => ?_⟩
  rw [run_append]
  generalize run (step false) initial actions = state at atGate ⊢
  have owes : (state.stores true).wakes.reader = .gate ∧
      (state.stores true).wakes.parked = true := by
    obtain ⟨wake, owed, isAfter, _⟩ := wakes_spec (state.stores true)
    rw [isAfter]
    exact ⟨atGate, rfl⟩
  have loads : (state.stores true).wakes.readerSteps false first =
      { (state.stores true).wakes with reader := .loaded true } := by
    simp only [State.readerSteps, owes.1, owes.2]
  change (((state.stores true).wakes.readerSteps false first).readerSteps false
    second).stoodDown = true
  rw [loads]
  rfl

end Yggterm.ReaderParks
