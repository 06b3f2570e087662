import Mathlib.Data.Char
import Mathlib.Data.Finset.Basic
import Yggterm.Library.OrderedMaps
import Yggterm.PtyHandoff.Session

/-!
# Handing every session over

`hand_off_all_runtimes` of `yggterm-server/src/daemon.rs`: a retiring daemon parks the readers of
its live sessions, sends each session to its successor, and wakes the readers of those that did
not go.  What the successor and the wire answer to each attempt, and when, comes from outside.
-/

namespace Yggterm.Retirement

open PtyHandoff (PrecommitSupport)

abbrev Key := List Char

abbrev Text := List Char

/-- A process, as its pid and its start time. -/
abbrev Identity := Nat × Nat

/-- What the daemon keeps of a session: which `ReaderPark` is its own, and whether its child
runs. -/
structure Runtime where
  park : Nat
  running : Bool
  deriving DecidableEq, Repr

/-- The sessions of a daemon, and the parks that are held. -/
structure Terminals where
  sessions : OrderedMap Key Runtime
  parked : Finset Nat
  deriving DecidableEq

/-- No two sessions share a park: each runtime makes its own. -/
def Terminals.Apart (terminals : Terminals) : Prop :=
  ∀ key other runtime otherRuntime, terminals.sessions.get? key = some runtime →
    terminals.sessions.get? other = some otherRuntime → runtime.park = otherRuntime.park →
      key = other

/-- The keys of the live sessions, in order. -/
def Terminals.sessionKeys (terminals : Terminals) : List Key :=
  (terminals.sessions.entries.filter (·.2.running)).map Prod.fst

/-! ## One attempt -/

structure HandoffError where
  committed : Bool
  refused : Bool
  message : Text
  deriving DecidableEq

def HandoffError.display (error : HandoffError) : Text :=
  error.message ++ " (".toList ++
    (if error.committed then "AFTER the commit point — the fd is gone".toList
      else "before the commit point — the fd stayed".toList) ++ ")".toList

def bootReadinessMarker : Text := "successor still starting up: seating not ready yet".toList

def selfDialMarker : Text := "predecessor dialed its own pty-handoff listener (self-dial)".toList

def seatConflictMarker : Text := "this daemon already runs a live PTY for it".toList

def verdictIsBootRefusal (message : Text) : Bool := bootReadinessMarker <:+: message

def verdictIsSelfDial (message : Text) : Bool := selfDialMarker <:+: message

def messageIsSeatConflict (message : Text) : Bool := seatConflictMarker <:+: message

def bootRefusalRetryBudget : Nat := 30000

def bootRefusalRetryPause : Nat := 500

def selfDialRetryAttempts : Nat := 3

/-- What `send_session` answered, what the sweep then knows of the successor's wire, and what
the clock said, in milliseconds. -/
structure Attempt where
  sent : Except HandoffError (Option Identity)
  support : PrecommitSupport
  time : Nat
  deriving DecidableEq

/-- What came of one session: the last attempt, and when the boot-retry budget runs out. -/
structure Delivery where
  attempt : Attempt
  deadline : Option Nat

def HandoffError.isSelfDial (error : HandoffError) : Bool :=
  !error.committed && verdictIsSelfDial error.message

def HandoffError.isBootRefusal (error : HandoffError) : Bool :=
  !error.committed && verdictIsBootRefusal error.message

/-- The retry loop of one session, over the answers to come. -/
def deliver (selfDialAttempts : Nat) (deadline : Option Nat) :
    List Attempt → Option (Delivery × List Attempt)
  | [] => none
  | attempt :: rest =>
      match attempt.sent with
      | .ok _ => some (⟨attempt, deadline⟩, rest)
      | .error error =>
          if error.isSelfDial && decide (selfDialAttempts < selfDialRetryAttempts) then
            deliver (selfDialAttempts + 1) deadline rest
          else if !error.isBootRefusal then some (⟨attempt, deadline⟩, rest)
          else
            let limit := deadline.getD (attempt.time + bootRefusalRetryBudget)
            if limit ≤ attempt.time then some (⟨attempt, some limit⟩, rest)
            else deliver selfDialAttempts (some limit) rest

/-! ## The sweep -/

/-- What the sweep finds about the sessions themselves: whether a key still has a live runtime to
take, and how the shutdown of its runtime fails, if it does. -/
structure Surroundings where
  takeout : Key → Bool
  shutdownError : Key → Option Text
  stoodDown : Nat

inductive HandoffSweep where
  | allMoved (moved : Nat)
  | noneMoved (reason : Text)
  | partly (moved : Nat) (reason : Text)
  deriving DecidableEq

def classifyHandoffSweep (total moved dropped : Nat) (firstFailure : Option Text) : HandoffSweep :=
  let drained := moved + dropped
  match firstFailure with
  | none =>
      if drained = total then .allMoved moved
      else .partly moved ((toString moved).toList ++ " of ".toList ++ (toString total).toList ++
        " moved with no error reported".toList)
  | some reason =>
      if moved = 0 ∧ dropped = 0 then .noneMoved reason else .partly moved reason

structure HandoffSweepOutcome where
  sweep : HandoffSweep
  parked : List Nat
  successorIdentity : Option Identity
  stoodDown : Nat
  resumed : Nat
  precommit : PrecommitSupport
  refusedBeforeCommit : Nat
  refusedAfterCommit : Nat
  droppedDuplicates : Nat
  deriving DecidableEq

def nothingToDo (reason : Text) : HandoffSweepOutcome :=
  { sweep := .noneMoved reason, parked := [], successorIdentity := none, stoodDown := 0,
    resumed := 0, precommit := .unknown, refusedBeforeCommit := 0, refusedAfterCommit := 0,
    droppedDuplicates := 0 }

def HandoffSweepOutcome.allMoved (outcome : HandoffSweepOutcome) : Bool :=
  match outcome.sweep with
  | .allMoved _ => true
  | _ => false

/-- The variables of the loop. -/
structure Tally where
  terminals : Terminals
  deadline : Option Nat
  precommit : PrecommitSupport
  movedKeys : List Key
  successorIdentity : Option Identity
  firstFailure : Option Text
  refusedBeforeCommit : Nat
  refusedAfterCommit : Nat
  droppedKeys : List Key

def Tally.fails (tally : Tally) (reason : Text) : Tally :=
  { tally with firstFailure := tally.firstFailure.or (some reason) }

/-- `remove_session`: the runtime leaves the map whether or not its shutdown goes well. -/
def Terminals.removeSession (terminals : Terminals) (key : Key) : Terminals :=
  { terminals with sessions := terminals.sessions.erase key }

def Terminals.unpark (terminals : Terminals) (park : Nat) : Terminals :=
  { terminals with parked := terminals.parked.erase park }

/-- A seat that the successor refuses for good: the duplicate is woken and torn down. -/
def Tally.drops (surroundings : Surroundings) (tally : Tally) (key : Key) (park : Nat) : Tally :=
  let gone := { tally with terminals := (tally.terminals.unpark park).removeSession key }
  match surroundings.shutdownError key with
  | none => { gone with droppedKeys := gone.droppedKeys ++ [key] }
  | some error => gone.fails (key ++ ": duplicate drop failed: Err(".toList ++ error ++ ")".toList)

def Tally.countRefusal (tally : Tally) (error : HandoffError) : Tally :=
  if !error.refused then tally
  else if error.committed then { tally with refusedAfterCommit := tally.refusedAfterCommit + 1 }
  else { tally with refusedBeforeCommit := tally.refusedBeforeCommit + 1 }

def HandoffError.isConflict (error : HandoffError) : Bool :=
  error.refused && !error.committed && messageIsSeatConflict error.message

/-- What the loop does with the answer for a key. -/
def Tally.hears (surroundings : Surroundings) (tally : Tally) (key : Key) (park : Nat) :
    Except HandoffError (Option Identity) → Tally
  | .ok identity =>
      { tally with
        movedKeys := tally.movedKeys ++ [key]
        successorIdentity := identity.or tally.successorIdentity }
  | .error error =>
      let counted := tally.countRefusal error
      if error.isConflict then counted.drops surroundings key park
      else counted.fails (key ++ ": ".toList ++ error.display)

def sweepKey (surroundings : Surroundings) (tally : Tally) (attempts : List Attempt) (key : Key) :
    Option (Tally × List Attempt) :=
  match tally.terminals.sessions.get? key with
  | none => some (tally.fails (key ++ ": no live runtime to take".toList), attempts)
  | some runtime =>
      if !surroundings.takeout key then
        some (tally.fails (key ++ ": no live runtime to take".toList), attempts)
      else
        (deliver 0 tally.deadline attempts).map fun delivered =>
          let heard := { tally with
            deadline := delivered.1.deadline
            precommit := delivered.1.attempt.support }
          (heard.hears surroundings key runtime.park delivered.1.attempt.sent, delivered.2)

def sweepKeys (surroundings : Surroundings) : List Key → Tally → List Attempt →
    Option (Tally × List Attempt)
  | [], tally, attempts => some (tally, attempts)
  | key :: rest, tally, attempts =>
      (sweepKey surroundings tally attempts key).bind fun swept =>
        sweepKeys surroundings rest swept.1 swept.2

/-- The sessions whose readers are parked, with their parks. -/
def Terminals.parks (terminals : Terminals) (keys : List Key) : List (Key × Nat) :=
  keys.filterMap fun key => (terminals.sessions.get? key).map fun runtime => (key, runtime.park)

def startTally (terminals : Terminals) : Tally :=
  { terminals, deadline := none, precommit := .unknown, movedKeys := [], successorIdentity := none,
    firstFailure := none, refusedBeforeCommit := 0, refusedAfterCommit := 0, droppedKeys := [] }

/-- The readers of what did not move are woken again. -/
def finish (surroundings : Surroundings) (parked : List (Key × Nat)) (total : Nat) (tally : Tally) :
    Terminals × HandoffSweepOutcome :=
  let remaining := parked.filter fun entry => !tally.droppedKeys.contains entry.1
  let held := remaining.filter fun entry => tally.movedKeys.contains entry.1
  let released := remaining.filter fun entry => !tally.movedKeys.contains entry.1
  ({ tally.terminals with
      parked := tally.terminals.parked \ (released.map Prod.snd).toFinset },
    { sweep := classifyHandoffSweep total tally.movedKeys.length tally.droppedKeys.length
        tally.firstFailure
      parked := held.map Prod.snd
      successorIdentity := tally.successorIdentity
      stoodDown := surroundings.stoodDown
      resumed := released.length
      precommit := tally.precommit
      refusedBeforeCommit := tally.refusedBeforeCommit
      refusedAfterCommit := tally.refusedAfterCommit
      droppedDuplicates := tally.droppedKeys.length })

/-- The sweep, or nothing while an answer is still awaited. -/
def handOffAllRuntimes (surroundings : Surroundings) (terminals : Terminals)
    (attempts : List Attempt) : Option (Terminals × HandoffSweepOutcome × List Attempt) :=
  let keys := terminals.sessionKeys
  if keys.length = 0 then
    some (terminals, nothingToDo "this daemon owns no live PTYs".toList, attempts)
  else
    let parked := terminals.parks keys
    let standing := { terminals with
      parked := terminals.parked ∪ (parked.map Prod.snd).toFinset }
    (sweepKeys surroundings keys (startTally standing) attempts).map fun swept =>
      let finished := finish surroundings parked keys.length swept.1
      (finished.1, finished.2, swept.2)

/-! ## What the loops consume -/

/-- A session that was tried: the refusals that were free to retry, and the answer that stood. -/
structure Segment where
  key : Key
  retries : List Attempt
  last : Attempt

def Segment.attempts (segment : Segment) : List Attempt := segment.retries ++ [segment.last]

/-- The successor acknowledged the session. -/
def Segment.isMoved (segment : Segment) : Bool := segment.last.sent.toBool

/-- The successor refused the seat for good. -/
def Segment.isConflict (segment : Segment) : Bool :=
  match segment.last.sent with
  | .ok _ => false
  | .error error => error.isConflict

/-- The duplicate was torn down. -/
def Segment.isDropped (surroundings : Surroundings) (segment : Segment) : Bool :=
  segment.isConflict && (surroundings.shutdownError segment.key).isNone

/-- A refusal before the commit point that says when to try again. -/
def Attempt.isRetried (attempt : Attempt) : Bool :=
  match attempt.sent with
  | .ok _ => false
  | .error error => error.isSelfDial || error.isBootRefusal

theorem deliver_spec {selfDialAttempts : Nat} {deadline : Option Nat} {attempts : List Attempt}
    {delivered : Delivery × List Attempt}
    (returned : deliver selfDialAttempts deadline attempts = some delivered) :
    ∃ retries, attempts = retries ++ delivered.1.attempt :: delivered.2 ∧
      ∀ attempt ∈ retries, attempt.isRetried = true := by
  induction attempts generalizing selfDialAttempts deadline with
  | nil => cases returned
  | cons attempt rest inductionHypothesis =>
      have retried {retries : List Attempt} (isRetried : attempt.isRetried = true)
          (later : rest = retries ++ delivered.1.attempt :: delivered.2 ∧
            ∀ attempt ∈ retries, attempt.isRetried = true) :
          ∃ retries, attempt :: rest = retries ++ delivered.1.attempt :: delivered.2 ∧
            ∀ attempt ∈ retries, attempt.isRetried = true :=
        ⟨attempt :: retries, by rw [later.1]; rfl, List.forall_mem_cons.mpr ⟨isRetried, later.2⟩⟩
      rw [deliver] at returned
      cases isSent : attempt.sent with
      | ok identity =>
          simp only [isSent, Option.some.injEq] at returned
          subst returned
          exact ⟨[], rfl, List.forall_mem_nil _⟩
      | error error =>
          simp only [isSent] at returned
          split at returned
          · next selfDialed =>
              obtain ⟨retries, later⟩ := inductionHypothesis returned
              exact retried (by simp_all [Attempt.isRetried]) later
          split at returned
          · obtain rfl := Option.some.inj returned
            exact ⟨[], rfl, List.forall_mem_nil _⟩
          · next refused =>
              split at returned
              · obtain rfl := Option.some.inj returned
                exact ⟨[], rfl, List.forall_mem_nil _⟩
              · obtain ⟨retries, later⟩ := inductionHypothesis returned
                exact retried (by simp_all [Attempt.isRetried]) later

/-- What the loop has made of the sessions between two of its turns. -/
structure Tried (surroundings : Surroundings) (before after : Tally) (keys : List Key)
    (segments : List Segment) : Prop where
  turns : segments.map (·.key) = keys.filter surroundings.takeout
  retries : ∀ segment ∈ segments, ∀ attempt ∈ segment.retries, attempt.isRetried = true
  moved : after.movedKeys = before.movedKeys ++ (segments.filter (·.isMoved)).map (·.key)
  dropped : after.droppedKeys =
    before.droppedKeys ++ (segments.filter (·.isDropped surroundings)).map (·.key)
  sessions : ∀ key, after.terminals.sessions.get? key =
    if key ∈ (segments.filter (·.isConflict)).map (·.key) then none
    else before.terminals.sessions.get? key
  parked : ∀ park, park ∈ after.terminals.parked ↔ park ∈ before.terminals.parked ∧
    ∀ segment ∈ segments, segment.isConflict = true →
      ∀ runtime, before.terminals.sessions.get? segment.key = some runtime → park ≠ runtime.park
  failure : after.firstFailure = none ↔ before.firstFailure = none ∧
    ∀ key ∈ keys, ∃ segment ∈ segments, segment.key = key ∧
      (segment.isMoved = true ∨ segment.isDropped surroundings = true)

theorem Tried.refl (surroundings : Surroundings) (tally : Tally) :
    Tried surroundings tally tally [] [] := by
  constructor <;> simp

/-- Only keys of the loop have turns. -/
theorem Tried.key_mem {surroundings : Surroundings} {before after : Tally} {keys : List Key}
    {segments : List Segment} (tried : Tried surroundings before after keys segments)
    {segment : Segment} (member : segment ∈ segments) : segment.key ∈ keys := by
  have turn := List.mem_map_of_mem (f := (·.key)) member
  rw [tried.turns] at turn
  exact List.mem_of_mem_filter turn

theorem isConflict_of_isDropped {surroundings : Surroundings} {segment : Segment}
    (isDropped : segment.isDropped surroundings = true) : segment.isConflict = true :=
  (Bool.and_eq_true_iff.mp isDropped).1

@[simp]
theorem countRefusal_terminals (tally : Tally) (error : HandoffError) :
    (tally.countRefusal error).terminals = tally.terminals := by
  unfold Tally.countRefusal
  split
  · rfl
  · split <;> rfl

@[simp]
theorem countRefusal_movedKeys (tally : Tally) (error : HandoffError) :
    (tally.countRefusal error).movedKeys = tally.movedKeys := by
  unfold Tally.countRefusal
  split
  · rfl
  · split <;> rfl

@[simp]
theorem countRefusal_droppedKeys (tally : Tally) (error : HandoffError) :
    (tally.countRefusal error).droppedKeys = tally.droppedKeys := by
  unfold Tally.countRefusal
  split
  · rfl
  · split <;> rfl

@[simp]
theorem countRefusal_firstFailure (tally : Tally) (error : HandoffError) :
    (tally.countRefusal error).firstFailure = tally.firstFailure := by
  unfold Tally.countRefusal
  split
  · rfl
  · split <;> rfl

theorem fails_firstFailure_ne_none (tally : Tally) (reason : Text) :
    (tally.fails reason).firstFailure ≠ none := by
  unfold Tally.fails
  cases tally.firstFailure <;> simp

/-- A key whose runtime could not be taken is tried by nobody. -/
theorem tried_of_untaken {surroundings : Surroundings} {tally : Tally} {key : Key}
    (untaken : surroundings.takeout key = false) (reason : Text) :
    Tried surroundings tally (tally.fails reason) [key] [] where
  turns := by simp [untaken]
  retries := List.forall_mem_nil _
  moved := by simp [Tally.fails]
  dropped := by simp [Tally.fails]
  sessions := by simp [Tally.fails]
  parked := by simp [Tally.fails]
  failure := by simp [fails_firstFailure_ne_none]

/-- One answer settles one key. -/
theorem tried_hears {surroundings : Surroundings} (tally : Tally) (segment : Segment)
    {runtime : Runtime} (taken : surroundings.takeout segment.key = true)
    (retries : ∀ attempt ∈ segment.retries, attempt.isRetried = true)
    (isSession : tally.terminals.sessions.get? segment.key = some runtime) :
    Tried surroundings tally
      (tally.hears surroundings segment.key runtime.park segment.last.sent)
      [segment.key] [segment] := by
  have onlyKey : [segment].map (·.key) = [segment.key].filter surroundings.takeout := by
    simp [taken]
  have onlyRetries : ∀ other ∈ [segment], ∀ attempt ∈ other.retries, attempt.isRetried = true := by
    simpa using retries
  cases isSent : segment.last.sent with
  | ok identity =>
      have isMoved : segment.isMoved = true := by simp [Segment.isMoved, isSent, Except.toBool]
      have noConflict : segment.isConflict = false := by simp [Segment.isConflict, isSent]
      have notDropped : segment.isDropped surroundings = false := by
        simp [Segment.isDropped, noConflict]
      constructor
      · exact onlyKey
      · exact onlyRetries
      all_goals simp [Tally.hears, isMoved, noConflict, notDropped]
  | error error =>
      have notMoved : segment.isMoved = false := by simp [Segment.isMoved, isSent, Except.toBool]
      cases isConflict : error.isConflict with
      | false =>
          have noConflict : segment.isConflict = false := by
            simp [Segment.isConflict, isSent, isConflict]
          have notDropped : segment.isDropped surroundings = false := by
            simp [Segment.isDropped, noConflict]
          constructor
          · exact onlyKey
          · exact onlyRetries
          · simp [Tally.hears, isConflict, Tally.fails, notMoved]
          · simp [Tally.hears, isConflict, Tally.fails, notDropped]
          · simp [Tally.hears, isConflict, Tally.fails, noConflict]
          · simp [Tally.hears, isConflict, Tally.fails, noConflict]
          · simp [Tally.hears, isConflict, fails_firstFailure_ne_none, notMoved, notDropped]
      | true =>
          have conflict : segment.isConflict = true := by
            simp [Segment.isConflict, isSent, isConflict]
          cases isFailure : surroundings.shutdownError segment.key with
          | none =>
              have isDropped : segment.isDropped surroundings = true := by
                simp [Segment.isDropped, conflict, isFailure]
              constructor
              · exact onlyKey
              · exact onlyRetries
              · simp [Tally.hears, isConflict, Tally.drops, isFailure, notMoved]
              · simp [Tally.hears, isConflict, Tally.drops, isFailure, isDropped]
              · simp [Tally.hears, isConflict, Tally.drops, isFailure, conflict,
                  Terminals.removeSession, Terminals.unpark, OrderedMap.get?_erase]
              · simp [Tally.hears, isConflict, Tally.drops, isFailure, conflict,
                  Terminals.removeSession, Terminals.unpark, isSession, and_comm]
              · simp [Tally.hears, isConflict, Tally.drops, isFailure, isDropped]
          | some reason =>
              have notDropped : segment.isDropped surroundings = false := by
                simp [Segment.isDropped, isFailure]
              constructor
              · exact onlyKey
              · exact onlyRetries
              · simp [Tally.hears, isConflict, Tally.drops, isFailure, Tally.fails, notMoved]
              · simp [Tally.hears, isConflict, Tally.drops, isFailure, Tally.fails, notDropped]
              · simp [Tally.hears, isConflict, Tally.drops, isFailure, Tally.fails, conflict,
                  Terminals.removeSession, Terminals.unpark, OrderedMap.get?_erase]
              · simp [Tally.hears, isConflict, Tally.drops, isFailure, Tally.fails, conflict,
                  Terminals.removeSession, Terminals.unpark, isSession, and_comm]
              · simp [Tally.hears, isConflict, Tally.drops, isFailure, fails_firstFailure_ne_none,
                  notMoved, notDropped]

theorem Tried.trans {surroundings : Surroundings} {first second third : Tally} {key : Key}
    {keys : List Key} {segments more : List Segment} (fresh : key ∉ keys)
    (here : Tried surroundings first second [key] segments)
    (later : Tried surroundings second third keys more) :
    Tried surroundings first third (key :: keys) (segments ++ more) where
  turns := by rw [List.map_append, here.turns, later.turns, ← List.filter_append]; rfl
  retries := by
    intro segment member
    rcases List.mem_append.mp member with isHere | isLater
    · exact here.retries segment isHere
    · exact later.retries segment isLater
  moved := by rw [later.moved, here.moved]; simp
  dropped := by rw [later.dropped, here.dropped]; simp
  sessions := by
    intro other
    rw [later.sessions, here.sessions, List.filter_append, List.map_append]
    by_cases isLater : other ∈ (more.filter (·.isConflict)).map (·.key)
    · simp [isLater]
    · by_cases isHere : other ∈ (segments.filter (·.isConflict)).map (·.key)
      · rw [if_neg isLater, if_pos isHere, if_pos (List.mem_append_left _ isHere)]
      · rw [if_neg isLater, if_neg isHere, if_neg]
        exact fun member => (List.mem_append.mp member).elim isHere isLater
  parked := by
    intro park
    rw [later.parked, here.parked, and_assoc]
    refine and_congr_right fun _ => ?_
    have sameLater : ∀ segment ∈ more,
        second.terminals.sessions.get? segment.key = first.terminals.sessions.get? segment.key := by
      intro segment member
      rw [here.sessions, if_neg]
      intro conflict
      obtain ⟨other, isOther, sameKey⟩ := List.mem_map.mp conflict
      have isFirst := List.mem_singleton.mp (here.key_mem (List.mem_of_mem_filter isOther))
      exact fresh (isFirst ▸ sameKey ▸ later.key_mem member)
    constructor
    · rintro ⟨apartHere, apartLater⟩ segment member
      rcases List.mem_append.mp member with isHere | isLater
      · exact apartHere segment isHere
      · rw [← sameLater segment isLater]
        exact apartLater segment isLater
    · intro apart
      refine ⟨fun segment isHere => apart segment (List.mem_append_left _ isHere), ?_⟩
      intro segment isLater
      rw [sameLater segment isLater]
      exact apart segment (List.mem_append_right _ isLater)
  failure := by
    rw [later.failure, here.failure, and_assoc]
    refine and_congr_right fun _ => ?_
    rw [List.forall_mem_singleton, List.forall_mem_cons]
    have keyOf {segment : Segment} (member : segment ∈ segments) : segment.key = key :=
      List.mem_singleton.mp (here.key_mem member)
    constructor
    · rintro ⟨settledHere, settledLater⟩
      constructor
      · obtain ⟨segment, member, settled⟩ := settledHere
        exact ⟨segment, List.mem_append_left _ member, settled⟩
      · intro other isKey
        obtain ⟨segment, member, settled⟩ := settledLater other isKey
        exact ⟨segment, List.mem_append_right _ member, settled⟩
    · rintro ⟨settledHere, settledLater⟩
      constructor
      · obtain ⟨segment, member, sameKey, settled⟩ := settledHere
        rcases List.mem_append.mp member with isHere | isLater
        · exact ⟨segment, isHere, sameKey, settled⟩
        · exact absurd (sameKey ▸ later.key_mem isLater) fresh
      · intro other isKey
        obtain ⟨segment, member, sameKey, settled⟩ := settledLater other isKey
        rcases List.mem_append.mp member with isHere | isLater
        · exact absurd ((keyOf isHere).symm.trans sameKey ▸ isKey) fresh
        · exact ⟨segment, isLater, sameKey, settled⟩

theorem sweepKey_spec {surroundings : Surroundings} {tally : Tally} {attempts : List Attempt}
    {key : Key} {runtime : Runtime} (isSession : tally.terminals.sessions.get? key = some runtime)
    {swept : Tally × List Attempt}
    (returned : sweepKey surroundings tally attempts key = some swept) :
    ∃ segments, Tried surroundings tally swept.1 [key] segments ∧
      attempts = segments.flatMap Segment.attempts ++ swept.2 := by
  rw [sweepKey, isSession] at returned
  dsimp only at returned
  split at returned
  · next untaken =>
      obtain rfl := Option.some.inj returned
      exact ⟨[], tried_of_untaken (by simpa using untaken) _, rfl⟩
  · next taken =>
      obtain ⟨delivered, isDelivered, rfl⟩ := Option.map_eq_some_iff.mp returned
      obtain ⟨retries, isAttempts, retried⟩ := deliver_spec isDelivered
      have tried := tried_hears { tally with
          deadline := delivered.1.deadline, precommit := delivered.1.attempt.support }
        ⟨key, retries, delivered.1.attempt⟩ (by simpa using taken) retried isSession
      refine ⟨[⟨key, retries, delivered.1.attempt⟩], ?_, ?_⟩
      · exact ⟨tried.turns, tried.retries, tried.moved, tried.dropped, tried.sessions, tried.parked,
          tried.failure⟩
      · simp [Segment.attempts, isAttempts]

theorem sweepKeys_spec {surroundings : Surroundings} {keys : List Key} {tally : Tally}
    {attempts : List Attempt} (distinct : keys.Nodup)
    (present : ∀ key ∈ keys, ∃ runtime, tally.terminals.sessions.get? key = some runtime)
    {swept : Tally × List Attempt}
    (returned : sweepKeys surroundings keys tally attempts = some swept) :
    ∃ segments, Tried surroundings tally swept.1 keys segments ∧
      attempts = segments.flatMap Segment.attempts ++ swept.2 := by
  induction keys generalizing tally attempts with
  | nil =>
      obtain rfl := Option.some.inj returned
      exact ⟨[], .refl surroundings tally, rfl⟩
  | cons key rest inductionHypothesis =>
      obtain ⟨fresh, restDistinct⟩ := List.nodup_cons.mp distinct
      obtain ⟨⟨runtime, isSession⟩, restPresent⟩ := List.forall_mem_cons.mp present
      obtain ⟨first, isFirst, isRest⟩ := Option.bind_eq_some_iff.mp returned
      obtain ⟨segments, here, isAttempts⟩ := sweepKey_spec isSession isFirst
      have stillPresent : ∀ other ∈ rest, ∃ runtime,
          first.1.terminals.sessions.get? other = some runtime := by
        intro other isOther
        obtain ⟨otherRuntime, isOtherSession⟩ := restPresent other isOther
        refine ⟨otherRuntime, ?_⟩
        rw [here.sessions, if_neg, isOtherSession]
        intro conflict
        obtain ⟨segment, isSegment, rfl⟩ := List.mem_map.mp conflict
        have isFirstKey := List.mem_singleton.mp (here.key_mem (List.mem_of_mem_filter isSegment))
        exact fresh (isFirstKey ▸ isOther)
      obtain ⟨more, later, isLater⟩ := inductionHypothesis restDistinct stillPresent isRest
      refine ⟨segments ++ more, here.trans fresh later, ?_⟩
      rw [isAttempts, isLater, List.flatMap_append, List.append_assoc]

/-! ## The account of a sweep -/

def movedKeys (segments : List Segment) : List Key := (segments.filter (·.isMoved)).map (·.key)

def droppedKeys (surroundings : Surroundings) (segments : List Segment) : List Key :=
  (segments.filter (·.isDropped surroundings)).map (·.key)

def conflictKeys (segments : List Segment) : List Key :=
  (segments.filter (·.isConflict)).map (·.key)

/-- What a sweep that returned did, read off the answers it was given. -/
structure Account (surroundings : Surroundings) (before after : Terminals)
    (outcome : HandoffSweepOutcome) (attempts rest : List Attempt) (segments : List Segment) :
    Prop where
  /-- Every live session that could be taken had its turn, in order, whatever came of the others. -/
  turns : segments.map (·.key) = before.sessionKeys.filter surroundings.takeout
  answers : attempts = segments.flatMap Segment.attempts ++ rest
  /-- Nothing is sent again once its descriptor may have gone. -/
  retries : ∀ segment ∈ segments, ∀ attempt ∈ segment.retries, attempt.isRetried = true
  sessions : ∀ key, after.sessions.get? key =
    if key ∈ conflictKeys segments then none else before.sessions.get? key
  /-- Of the live sessions, those that moved stay parked, and no others. -/
  parked : ∀ key runtime, before.sessions.get? key = some runtime →
    (runtime.park ∈ after.parked ↔
      if runtime.running then key ∈ movedKeys segments else runtime.park ∈ before.parked)
  bounded : ∀ park ∈ after.parked, park ∈ before.parked ∨
    ∃ key runtime, before.sessions.get? key = some runtime ∧ runtime.park = park
  held : ∀ park, park ∈ outcome.parked ↔ ∃ key ∈ movedKeys segments, ∃ runtime,
    before.sessions.get? key = some runtime ∧ runtime.park = park
  allMoved : outcome.allMoved = true ↔ before.sessionKeys ≠ [] ∧
    ∀ key ∈ before.sessionKeys, key ∈ movedKeys segments ∨ key ∈ droppedKeys surroundings segments
  noneMoved : (∃ reason, outcome.sweep = .noneMoved reason) ↔
    movedKeys segments = [] ∧ droppedKeys surroundings segments = []
  droppedDuplicates : outcome.droppedDuplicates = (droppedKeys surroundings segments).length

theorem nodup_sessionKeys (terminals : Terminals) : terminals.sessionKeys.Nodup := by
  have distinct : (terminals.sessions.entries.map Prod.fst).Nodup :=
    List.pairwise_map.mpr (terminals.sessions.rising.imp fun below => ne_of_lt below)
  exact distinct.sublist (List.filter_sublist.map Prod.fst)

theorem mem_sessionKeys {terminals : Terminals} {key : Key} :
    key ∈ terminals.sessionKeys ↔
      ∃ runtime, terminals.sessions.get? key = some runtime ∧ runtime.running = true := by
  simp [Terminals.sessionKeys, OrderedMap.get?_eq_some_iff]

theorem mem_parks {terminals : Terminals} {keys : List Key} {key : Key} {park : Nat} :
    (key, park) ∈ terminals.parks keys ↔
      key ∈ keys ∧ ∃ runtime, terminals.sessions.get? key = some runtime ∧ runtime.park = park := by
  simp only [Terminals.parks, List.mem_filterMap, Option.map_eq_some_iff, Prod.mk.injEq]
  constructor
  · rintro ⟨other, isKey, runtime, stored, rfl, isPark⟩
    exact ⟨isKey, runtime, stored, isPark⟩
  · rintro ⟨isKey, runtime, stored, isPark⟩
    exact ⟨key, isKey, runtime, stored, rfl, isPark⟩

theorem isDropped_eq_not_isMoved {surroundings : Surroundings} {segment : Segment}
    (settled : segment.isMoved = true ∨ segment.isDropped surroundings = true) :
    segment.isDropped surroundings = !segment.isMoved := by
  cases isSent : segment.last.sent <;>
    simp_all [Segment.isMoved, Segment.isDropped, Segment.isConflict, Except.toBool]

theorem length_moved_add_dropped {surroundings : Surroundings} {segments : List Segment}
    (settled : ∀ segment ∈ segments,
      segment.isMoved = true ∨ segment.isDropped surroundings = true) :
    (movedKeys segments).length + (droppedKeys surroundings segments).length = segments.length := by
  have same : segments.filter (·.isDropped surroundings) = segments.filter (!·.isMoved) :=
    List.filter_congr fun segment member => isDropped_eq_not_isMoved (settled segment member)
  rw [movedKeys, droppedKeys, List.length_map, List.length_map, same,
    ← List.countP_eq_length_filter, ← List.countP_eq_length_filter]
  have whole := List.length_eq_countP_add_countP (fun segment : Segment => segment.isMoved)
    (l := segments)
  simp only [Bool.not_eq_true] at whole
  simpa [Bool.not_eq_true'] using whole.symm

theorem mem_movedKeys_of_isMoved {segments : List Segment} {segment : Segment}
    (member : segment ∈ segments) (isMoved : segment.isMoved = true) :
    segment.key ∈ movedKeys segments :=
  List.mem_map_of_mem (List.mem_filter.mpr ⟨member, isMoved⟩)

theorem mem_droppedKeys_of_isDropped {surroundings : Surroundings} {segments : List Segment}
    {segment : Segment} (member : segment ∈ segments)
    (isDropped : segment.isDropped surroundings = true) :
    segment.key ∈ droppedKeys surroundings segments :=
  List.mem_map_of_mem (List.mem_filter.mpr ⟨member, isDropped⟩)

/-- A key that moved met no conflict: each key has one turn. -/
theorem isConflict_eq_false_of_moved {segments : List Segment}
    (distinct : (segments.map (·.key)).Nodup) {segment : Segment} (member : segment ∈ segments)
    (moved : segment.key ∈ movedKeys segments) : segment.isConflict = false := by
  obtain ⟨other, isOther, sameKey⟩ := List.mem_map.mp moved
  obtain ⟨otherMember, otherMoved⟩ := List.mem_filter.mp isOther
  obtain rfl := List.inj_on_of_nodup_map distinct otherMember member sameKey
  cases isSent : other.last.sent <;>
    simp_all [Segment.isMoved, Segment.isConflict, Except.toBool]

theorem sweep_of_failure {total moved dropped : Nat} {failure : Option Text}
    (drained : failure = none → moved + dropped = total) :
    ((∃ count, classifyHandoffSweep total moved dropped failure = .allMoved count) ↔
        failure = none) ∧
      ((∃ reason, classifyHandoffSweep total moved dropped failure = .noneMoved reason) ↔
        failure ≠ none ∧ moved = 0 ∧ dropped = 0) := by
  unfold classifyHandoffSweep
  cases failure with
  | none => simp [drained rfl]
  | some reason =>
      dsimp only
      split <;> simp_all

/-- The daemon while its readers are parked for the sweep. -/
def Terminals.standing (terminals : Terminals) : Terminals :=
  { terminals with
    parked := terminals.parked ∪ ((terminals.parks terminals.sessionKeys).map Prod.snd).toFinset }

theorem mem_standing {terminals : Terminals} (apart : terminals.Apart) {key : Key}
    {runtime : Runtime} (stored : terminals.sessions.get? key = some runtime) :
    runtime.park ∈ terminals.standing.parked ↔
      runtime.running = true ∨ runtime.park ∈ terminals.parked := by
  simp only [Terminals.standing, Finset.mem_union, List.mem_toFinset, List.mem_map]
  constructor
  · rintro (before | ⟨⟨other, park⟩, isPark, rfl⟩)
    · exact .inr before
    · obtain ⟨isKey, otherRuntime, otherStored, samePark⟩ := mem_parks.mp isPark
      obtain rfl := apart _ _ _ _ otherStored stored samePark
      obtain ⟨live, liveStored, running⟩ := mem_sessionKeys.mp isKey
      obtain rfl := Option.some.inj (liveStored.symm.trans stored)
      exact .inl running
  · rintro (running | before)
    · exact .inr ⟨(key, runtime.park),
        mem_parks.mpr ⟨mem_sessionKeys.mpr ⟨runtime, stored, running⟩, runtime, stored, rfl⟩, rfl⟩
    · exact .inl before

section Finish

variable {surroundings : Surroundings} {before : Terminals} {tally : Tally}
variable {segments : List Segment}

/-- The readers that are woken at the end are those of the keys that neither moved nor were
dropped. -/
theorem mem_released (tried : Tried surroundings (startTally before.standing) tally
      before.sessionKeys segments) (apart : before.Apart) {key : Key} {runtime : Runtime}
    (stored : before.sessions.get? key = some runtime) :
    runtime.park ∈ ((((before.parks before.sessionKeys).filter
        fun entry => !tally.droppedKeys.contains entry.1).filter
          fun entry => !tally.movedKeys.contains entry.1).map Prod.snd).toFinset ↔
      key ∈ before.sessionKeys ∧ key ∉ droppedKeys surroundings segments ∧
        key ∉ movedKeys segments := by
  have moved : tally.movedKeys = movedKeys segments := tried.moved
  have dropped : tally.droppedKeys = droppedKeys surroundings segments := tried.dropped
  simp only [List.mem_toFinset, List.mem_map, List.mem_filter, moved, dropped,
    List.contains_eq_mem, Bool.not_eq_true', decide_eq_false_iff_not]
  constructor
  · rintro ⟨⟨other, park⟩, ⟨⟨isPark, notDropped⟩, notMoved⟩, rfl⟩
    obtain ⟨isKey, otherRuntime, otherStored, samePark⟩ := mem_parks.mp isPark
    obtain rfl := apart _ _ _ _ otherStored stored samePark
    exact ⟨isKey, notDropped, notMoved⟩
  · rintro ⟨isKey, notDropped, notMoved⟩
    have isPark := mem_parks.mpr ⟨isKey, runtime, stored, rfl⟩
    exact ⟨(key, runtime.park), ⟨⟨isPark, notDropped⟩, notMoved⟩, rfl⟩

theorem mem_parked_finish (tried : Tried surroundings (startTally before.standing) tally
      before.sessionKeys segments) (apart : before.Apart) {key : Key} {runtime : Runtime}
    (stored : before.sessions.get? key = some runtime) :
    runtime.park ∈ (finish surroundings (before.parks before.sessionKeys) before.sessionKeys.length
        tally).1.parked ↔
      if runtime.running then key ∈ movedKeys segments else runtime.park ∈ before.parked := by
  have distinct : (segments.map (·.key)).Nodup :=
    tried.turns ▸ (nodup_sessionKeys before).filter _
  have isLive : key ∈ before.sessionKeys ↔ runtime.running = true := by
    rw [mem_sessionKeys]
    constructor
    · rintro ⟨live, liveStored, running⟩
      rwa [← Option.some.inj (liveStored.symm.trans stored)]
    · exact fun running => ⟨runtime, stored, running⟩
  have standing := mem_standing apart stored
  change _ ∈ tally.terminals.parked \ _ ↔ _
  rw [Finset.mem_sdiff, mem_released tried apart stored, tried.parked]
  change (_ ∈ before.standing.parked ∧ _) ∧ _ ↔ _
  rw [standing, isLive]
  -- a conflict under another key concerns another park
  have conflicts : (∀ segment ∈ segments, segment.isConflict = true → ∀ other,
      before.sessions.get? segment.key = some other → runtime.park ≠ other.park) ↔
        key ∉ conflictKeys segments := by
    constructor
    · intro apartFrom conflict
      obtain ⟨segment, isSegment, rfl⟩ := List.mem_map.mp conflict
      obtain ⟨member, isConflict⟩ := List.mem_filter.mp isSegment
      exact apartFrom segment member isConflict runtime stored rfl
    · intro noConflict segment member isConflict other otherStored samePark
      obtain rfl := apart _ _ _ _ stored otherStored samePark
      exact noConflict (List.mem_map_of_mem (List.mem_filter.mpr ⟨member, isConflict⟩))
  change ((_ ∨ _) ∧ ∀ segment ∈ segments, segment.isConflict = true → ∀ other,
      before.sessions.get? segment.key = some other → runtime.park ≠ other.park) ∧ _ ↔ _
  rw [conflicts]
  cases running : runtime.running with
  | false =>
      have notLive : key ∉ before.sessionKeys := by simp [isLive, running]
      have noConflict : key ∉ conflictKeys segments := by
        intro conflict
        obtain ⟨segment, isSegment, rfl⟩ := List.mem_map.mp conflict
        exact notLive (tried.key_mem (List.mem_of_mem_filter isSegment))
      simp [noConflict]
  | true =>
      simp only [true_or, true_and, if_true, not_and, not_not]
      constructor
      · rintro ⟨noConflict, kept⟩
        refine kept fun dropped => noConflict ?_
        obtain ⟨segment, isSegment, rfl⟩ := List.mem_map.mp dropped
        obtain ⟨member, isDropped⟩ := List.mem_filter.mp isSegment
        exact List.mem_map_of_mem
          (List.mem_filter.mpr ⟨member, isConflict_of_isDropped isDropped⟩)
      · intro moved
        refine ⟨fun conflict => ?_, fun _ => moved⟩
        obtain ⟨segment, isSegment, rfl⟩ := List.mem_map.mp conflict
        obtain ⟨member, isConflict⟩ := List.mem_filter.mp isSegment
        rw [isConflict_eq_false_of_moved distinct member moved] at isConflict
        cases isConflict

theorem parked_finish (tried : Tried surroundings (startTally before.standing) tally
      before.sessionKeys segments) (park : Nat)
    (isParked : park ∈ (finish surroundings (before.parks before.sessionKeys)
      before.sessionKeys.length tally).1.parked) :
    park ∈ before.parked ∨
      ∃ key runtime, before.sessions.get? key = some runtime ∧ runtime.park = park := by
  have standing := ((tried.parked park).mp (Finset.mem_sdiff.mp isParked).1).1
  rcases Finset.mem_union.mp standing with already | own
  · exact .inl already
  · obtain ⟨⟨key, held⟩, isPark, rfl⟩ := List.mem_map.mp (List.mem_toFinset.mp own)
    exact .inr ⟨key, (mem_parks.mp isPark).2⟩

theorem mem_held_finish (tried : Tried surroundings (startTally before.standing) tally
      before.sessionKeys segments) (park : Nat) :
    park ∈ (finish surroundings (before.parks before.sessionKeys) before.sessionKeys.length
        tally).2.parked ↔
      ∃ key ∈ movedKeys segments, ∃ runtime,
        before.sessions.get? key = some runtime ∧ runtime.park = park := by
  have moved : tally.movedKeys = movedKeys segments := tried.moved
  have dropped : tally.droppedKeys = droppedKeys surroundings segments := tried.dropped
  have distinct : (segments.map (·.key)).Nodup :=
    tried.turns ▸ (nodup_sessionKeys before).filter _
  simp only [finish, List.mem_map, List.mem_filter, moved, dropped, List.contains_eq_mem,
    Bool.not_eq_true', decide_eq_false_iff_not, decide_eq_true_eq]
  constructor
  · rintro ⟨⟨key, held⟩, ⟨⟨isPark, _⟩, isMoved⟩, rfl⟩
    exact ⟨key, isMoved, (mem_parks.mp isPark).2⟩
  · rintro ⟨key, isMoved, runtime, stored, rfl⟩
    refine ⟨(key, runtime.park), ⟨⟨mem_parks.mpr ⟨?_, runtime, stored, rfl⟩, ?_⟩, isMoved⟩, rfl⟩
    · obtain ⟨segment, isSegment, rfl⟩ := List.mem_map.mp isMoved
      exact tried.key_mem (List.mem_of_mem_filter isSegment)
    · intro isDropped
      obtain ⟨segment, isSegment, rfl⟩ := List.mem_map.mp isDropped
      obtain ⟨member, droppedHere⟩ := List.mem_filter.mp isSegment
      have conflict := isConflict_of_isDropped droppedHere
      rw [isConflict_eq_false_of_moved distinct member isMoved] at conflict
      cases conflict

/-- The first failure stays unset exactly where every live session moved or was dropped. -/
theorem firstFailure_finish (tried : Tried surroundings (startTally before.standing) tally
      before.sessionKeys segments) :
    tally.firstFailure = none ↔ ∀ key ∈ before.sessionKeys,
      key ∈ movedKeys segments ∨ key ∈ droppedKeys surroundings segments := by
  rw [tried.failure]
  change (none = none ∧ _) ↔ _
  rw [eq_self, true_and]
  refine forall₂_congr fun key _ => ?_
  constructor
  · rintro ⟨segment, member, rfl, isMoved | isDropped⟩
    · exact .inl (mem_movedKeys_of_isMoved member isMoved)
    · exact .inr (mem_droppedKeys_of_isDropped member isDropped)
  · rintro (moved | dropped)
    · obtain ⟨segment, isSegment, isKey⟩ := List.mem_map.mp moved
      obtain ⟨member, isMoved⟩ := List.mem_filter.mp isSegment
      exact ⟨segment, member, isKey, .inl isMoved⟩
    · obtain ⟨segment, isSegment, isKey⟩ := List.mem_map.mp dropped
      obtain ⟨member, isDropped⟩ := List.mem_filter.mp isSegment
      exact ⟨segment, member, isKey, .inr isDropped⟩

theorem drained_of_firstFailure (tried : Tried surroundings (startTally before.standing) tally
      before.sessionKeys segments) (noFailure : tally.firstFailure = none) :
    tally.movedKeys.length + tally.droppedKeys.length = before.sessionKeys.length := by
  have moved : tally.movedKeys = movedKeys segments := tried.moved
  have dropped : tally.droppedKeys = droppedKeys surroundings segments := tried.dropped
  have settled := (tried.failure.mp noFailure).2
  have distinct : (segments.map (·.key)).Nodup :=
    tried.turns ▸ (nodup_sessionKeys before).filter _
  have allTaken : segments.map (·.key) = before.sessionKeys := by
    rw [tried.turns, List.filter_eq_self]
    intro key isKey
    obtain ⟨segment, member, rfl, _⟩ := settled key isKey
    have turn := List.mem_map_of_mem (f := (·.key)) member
    rw [tried.turns] at turn
    exact List.of_mem_filter turn
  rw [moved, dropped, length_moved_add_dropped, ← allTaken, List.length_map]
  intro segment member
  have isKey : segment.key ∈ before.sessionKeys := allTaken ▸ List.mem_map_of_mem member
  obtain ⟨other, otherMember, sameKey, done⟩ := settled segment.key isKey
  obtain rfl := List.inj_on_of_nodup_map distinct otherMember member sameKey
  exact done

end Finish

/-- A sweep that has its answers divides the live sessions: those that the successor acknowledged
stay, parked, and are watched; those that it refused for good are torn down; all others are read
here again.  No session's failure keeps another from its turn, and the process may exit only
where nothing was left. -/
theorem sweep_accounts {surroundings : Surroundings} {before after : Terminals}
    {outcome : HandoffSweepOutcome} {attempts rest : List Attempt} (apart : before.Apart)
    (returned : handOffAllRuntimes surroundings before attempts = some (after, outcome, rest)) :
    ∃ segments, Account surroundings before after outcome attempts rest segments := by
  have keysDistinct := nodup_sessionKeys before
  unfold handOffAllRuntimes at returned
  dsimp only at returned
  split at returned
  · next empty =>
      have noKeys := List.length_eq_zero_iff.mp empty
      simp only [Option.some.injEq, Prod.mk.injEq] at returned
      obtain ⟨rfl, rfl, rfl⟩ := returned
      refine ⟨[], by simp [noKeys], rfl, List.forall_mem_nil _, by simp [conflictKeys], ?_,
        fun _ => .inl, ?_, ?_, ?_, rfl⟩
      · intro key runtime stored
        cases running : runtime.running with
        | false => simp
        | true =>
            have member := mem_sessionKeys.mpr ⟨runtime, stored, running⟩
            rw [noKeys] at member
            cases member
      · simp [nothingToDo, movedKeys]
      · simp [nothingToDo, HandoffSweepOutcome.allMoved, noKeys]
      · simp [nothingToDo, movedKeys, droppedKeys]
  · next nonempty =>
      obtain ⟨swept, isSwept, isAfter⟩ := Option.map_eq_some_iff.mp returned
      simp only [Prod.mk.injEq] at isAfter
      obtain ⟨rfl, rfl, rfl⟩ := isAfter
      have present : ∀ key ∈ before.sessionKeys, ∃ runtime,
          before.sessions.get? key = some runtime :=
        fun key member => (mem_sessionKeys.mp member).imp fun _ => And.left
      obtain ⟨segments, tried, isAttempts⟩ := sweepKeys_spec keysDistinct present isSwept
      have moved : swept.1.movedKeys = movedKeys segments := tried.moved
      have dropped : swept.1.droppedKeys = droppedKeys surroundings segments := tried.dropped
      have hasKeys : before.sessionKeys ≠ [] := fun empty => nonempty (by rw [empty]; rfl)
      have failure := firstFailure_finish tried
      have classified := sweep_of_failure (drained_of_firstFailure tried)
      refine ⟨segments, tried.turns, isAttempts, tried.retries, tried.sessions,
        fun key runtime stored => mem_parked_finish tried apart stored, parked_finish tried,
        mem_held_finish tried, ?_, ?_, congrArg List.length dropped⟩
      · rw [← failure, and_iff_right hasKeys, ← classified.1]
        unfold HandoffSweepOutcome.allMoved
        split
        · next count isSweep => exact iff_of_true rfl ⟨count, isSweep⟩
        · next notMoved =>
            refine iff_of_false Bool.false_ne_true ?_
            rintro ⟨count, isSweep⟩
            exact notMoved count isSweep
      · refine classified.2.trans ?_
        rw [moved, dropped, List.length_eq_zero_iff, List.length_eq_zero_iff]
        refine and_iff_right_of_imp ?_
        rintro ⟨noneMoved, noneDropped⟩ noFailure
        obtain ⟨key, isKey⟩ := List.exists_mem_of_ne_nil _ hasKeys
        rcases failure.mp noFailure key isKey with isMoved | isDropped
        · rw [noneMoved] at isMoved
          cases isMoved
        · rw [noneDropped] at isDropped
          cases isDropped

/-- Two sessions, of which the successor acknowledges one and refuses the other for good. -/
def twoSessions : Terminals :=
  ⟨(OrderedMap.empty.insert "a".toList ⟨0, true⟩).insert "b".toList ⟨1, true⟩, ∅⟩

def quiet : Surroundings := ⟨fun _ => true, fun _ => none, 2⟩

def adopted : Attempt := ⟨.ok (some (70, 900)), .speaks, 10⟩

def refusedForGood : Attempt :=
  ⟨.error ⟨false, true, "successor refused to seat it: ".toList ++ seatConflictMarker⟩, .speaks, 20⟩

theorem apart_twoSessions : twoSessions.Apart := by
  intro key other runtime otherRuntime isStored otherStored samePark
  have entries : twoSessions.sessions.entries =
      [("a".toList, ⟨0, true⟩), ("b".toList, ⟨1, true⟩)] := rfl
  rw [OrderedMap.get?_eq_some_iff, entries] at isStored otherStored
  simp only [List.mem_cons, Prod.mk.injEq, List.not_mem_nil, or_false] at isStored otherStored
  rcases isStored with ⟨rfl, rfl⟩ | ⟨rfl, rfl⟩ <;> rcases otherStored with ⟨rfl, rfl⟩ | ⟨rfl, rfl⟩
  · rfl
  · cases samePark
  · cases samePark
  · rfl

theorem sweep_accounts_of_conflict : ∃ segments, Account quiet twoSessions
    ⟨OrderedMap.empty.insert "a".toList ⟨0, true⟩, {0}⟩
    ⟨.allMoved 1, [0], some (70, 900), 2, 0, .speaks, 1, 0, 1⟩ [adopted, refusedForGood] []
    segments :=
  sweep_accounts apart_twoSessions (by decide +kernel)

/-! ## How often the sweep asks -/

/-- A refusal that is answered by waiting for the successor to finish booting. -/
def Attempt.isBootRefused (attempt : Attempt) : Bool :=
  match attempt.sent with
  | .ok _ => false
  | .error error => error.isBootRefusal

/-- The clock does not go back, and the pause after a boot refusal is slept out. -/
def Paced : List Attempt → Prop
  | first :: second :: rest =>
      first.time + (if first.isBootRefused then bootRefusalRetryPause else 0) ≤ second.time ∧
        Paced (second :: rest)
  | _ => True

instance decidablePaced : ∀ attempts, Decidable (Paced attempts)
  | [] => inferInstanceAs (Decidable True)
  | [_] => inferInstanceAs (Decidable True)
  | first :: second :: rest =>
      have := decidablePaced (second :: rest)
      inferInstanceAs (Decidable
        (first.time + (if first.isBootRefused then bootRefusalRetryPause else 0) ≤ second.time ∧
          Paced (second :: rest)))

/-- How many pauses the budget of the whole sweep pays for. -/
def bootKnocks : Nat := bootRefusalRetryBudget / bootRefusalRetryPause

/-- How many boot refusals may still be retried. -/
def knocksLeft (deadline : Option Nat) : List Attempt → Nat
  | [] => 0
  | next :: _ =>
      match deadline with
      | none => bootKnocks
      | some limit => (limit - next.time + (bootRefusalRetryPause - 1)) / bootRefusalRetryPause

theorem Paced.tail {attempt : Attempt} {rest : List Attempt} (paced : Paced (attempt :: rest)) :
    Paced rest := by
  cases rest with
  | nil => trivial
  | cons next later => exact paced.2

theorem knocksLeft_tail {deadline : Option Nat} {attempt : Attempt} {rest : List Attempt}
    (paced : Paced (attempt :: rest)) :
    knocksLeft deadline rest ≤ knocksLeft deadline (attempt :: rest) := by
  cases rest with
  | nil => exact Nat.zero_le _
  | cons next later =>
      have passes : attempt.time ≤ next.time := Nat.le_trans (Nat.le_add_right _ _) paced.1
      cases deadline with
      | none => exact Nat.le_refl _
      | some limit => exact Nat.div_le_div_right (by omega)

/-- A pause slept out uses up one retry. -/
theorem knocksLeft_pause {deadline : Option Nat} {attempt : Attempt} {rest : List Attempt}
    (paced : Paced (attempt :: rest)) (isBootRefused : attempt.isBootRefused = true)
    (inTime : attempt.time < deadline.getD (attempt.time + bootRefusalRetryBudget)) :
    knocksLeft (some (deadline.getD (attempt.time + bootRefusalRetryBudget))) rest + 1 ≤
      knocksLeft deadline (attempt :: rest) := by
  have waits : ∀ next later, rest = next :: later →
      attempt.time + bootRefusalRetryPause ≤ next.time := by
    rintro next later rfl
    have slept := paced.1
    rwa [if_pos isBootRefused] at slept
  cases rest with
  | nil =>
      cases deadline with
      | none => exact Nat.le_of_ble_eq_true rfl
      | some limit =>
          simp only [knocksLeft, bootRefusalRetryPause, Option.getD_some] at inTime ⊢
          omega
  | cons next later =>
      have slept := waits next later rfl
      cases deadline with
      | none =>
          simp only [knocksLeft, bootKnocks, bootRefusalRetryPause, bootRefusalRetryBudget,
            Option.getD_none] at inTime slept ⊢
          omega
      | some limit =>
          simp only [knocksLeft, bootRefusalRetryPause, Option.getD_some] at inTime slept ⊢
          omega

/-- A session is settled within its own four attempts and what is left of the budget. -/
theorem deliver_returns {selfDialAttempts : Nat} {deadline : Option Nat} {attempts : List Attempt}
    (spare : Nat) (paced : Paced attempts) (few : selfDialAttempts ≤ selfDialRetryAttempts)
    (enough : selfDialRetryAttempts + 1 - selfDialAttempts + spare + knocksLeft deadline attempts ≤
      attempts.length) :
    ∃ delivered, deliver selfDialAttempts deadline attempts = some delivered ∧ Paced delivered.2 ∧
      spare + knocksLeft delivered.1.deadline delivered.2 ≤ delivered.2.length := by
  induction attempts generalizing selfDialAttempts deadline with
  | nil =>
      rw [List.length_nil] at enough
      omega
  | cons attempt rest inductionHypothesis =>
      rw [List.length_cons] at enough
      have fewer : knocksLeft deadline rest ≤ knocksLeft deadline (attempt :: rest) :=
        knocksLeft_tail paced
      have settles : ∃ delivered, some ((⟨attempt, deadline⟩ : Delivery), rest) = some delivered ∧
          Paced delivered.2 ∧
          spare + knocksLeft delivered.1.deadline delivered.2 ≤ delivered.2.length :=
        ⟨_, rfl, paced.tail, by dsimp only; omega⟩
      rw [deliver]
      cases isSent : attempt.sent with
      | ok identity => exact settles
      | error error =>
          dsimp only
          split
          · next selfDialed =>
              have more := of_decide_eq_true (Bool.and_eq_true_iff.mp selfDialed).2
              exact inductionHypothesis paced.tail more (by omega)
          split
          · exact settles
          · next isBootRefusal =>
              have refused : attempt.isBootRefused = true := by
                simpa [Attempt.isBootRefused, isSent] using isBootRefusal
              split
              · next spent =>
                  cases deadline with
                  | none =>
                      rw [Option.getD_none, bootRefusalRetryBudget] at spent
                      omega
                  | some limit => exact settles
              · next inTime =>
                  have fewerKnocks := knocksLeft_pause paced refused (Nat.lt_of_not_le inTime)
                  refine inductionHypothesis paced.tail few ?_
                  omega

theorem hears_deadline (surroundings : Surroundings) (tally : Tally) (key : Key) (park : Nat)
    (sent : Except HandoffError (Option Identity)) :
    (tally.hears surroundings key park sent).deadline = tally.deadline := by
  have counted (error : HandoffError) : (tally.countRefusal error).deadline = tally.deadline := by
    unfold Tally.countRefusal
    split
    · rfl
    · split <;> rfl
  cases sent with
  | ok identity => rfl
  | error error =>
      dsimp only [Tally.hears]
      split
      · unfold Tally.drops
        dsimp only
        split <;> exact counted error
      · exact counted error

theorem sweepKeys_returns {surroundings : Surroundings} {keys : List Key} {tally : Tally}
    {attempts : List Attempt} (paced : Paced attempts)
    (enough : (selfDialRetryAttempts + 1) * keys.length + knocksLeft tally.deadline attempts ≤
      attempts.length) :
    (sweepKeys surroundings keys tally attempts).isSome := by
  induction keys generalizing tally attempts with
  | nil => rfl
  | cons key rest inductionHypothesis =>
      rw [List.length_cons, Nat.mul_succ] at enough
      suffices next : ∃ swept, sweepKey surroundings tally attempts key = some swept ∧
          Paced swept.2 ∧ (selfDialRetryAttempts + 1) * rest.length +
            knocksLeft swept.1.deadline swept.2 ≤ swept.2.length by
        obtain ⟨swept, isSwept, stillPaced, stillEnough⟩ := next
        rw [sweepKeys, isSwept, Option.bind_some]
        exact inductionHypothesis stillPaced stillEnough
      unfold sweepKey
      split
      · exact ⟨_, rfl, paced, by dsimp only [Tally.fails]; omega⟩
      · next runtime isSession =>
          split
          · exact ⟨_, rfl, paced, by dsimp only [Tally.fails]; omega⟩
          · obtain ⟨delivered, isDelivered, stillPaced, stillEnough⟩ :=
              deliver_returns ((selfDialRetryAttempts + 1) * rest.length) paced (Nat.zero_le _)
                (show selfDialRetryAttempts + 1 - 0 + (selfDialRetryAttempts + 1) * rest.length +
                  knocksLeft tally.deadline attempts ≤ attempts.length by omega)
            rw [isDelivered]
            refine ⟨_, rfl, stillPaced, ?_⟩
            rw [hears_deadline]
            exact stillEnough

/-- However the successor answers, one sweep asks at most four times for each session and
sixty times more in all: a successor that never gets ready costs its budget once and not once for
each session. -/
theorem sweep_returns {surroundings : Surroundings} {terminals : Terminals}
    {attempts : List Attempt} (paced : Paced attempts)
    (enough : 4 * terminals.sessionKeys.length + 60 ≤ attempts.length) :
    (handOffAllRuntimes surroundings terminals attempts).isSome := by
  unfold handOffAllRuntimes
  dsimp only
  split
  · rfl
  · rw [Option.isSome_map]
    apply sweepKeys_returns paced
    have budget : knocksLeft none attempts ≤ 60 := by
      cases attempts
      · exact Nat.zero_le _
      · exact Nat.le_of_ble_eq_true rfl
    change 4 * terminals.sessionKeys.length + knocksLeft none attempts ≤ attempts.length
    omega

theorem paced_replicate {attempt : Attempt} (answered : attempt.isBootRefused = false) :
    ∀ count, Paced (List.replicate count attempt)
  | 0 => trivial
  | 1 => trivial
  | count + 2 => ⟨by rw [answered]; exact Nat.le_refl _, paced_replicate answered (count + 1)⟩

theorem sweep_returns_of_adopted :
    (handOffAllRuntimes quiet twoSessions (List.replicate 68 adopted)).isSome :=
  sweep_returns (paced_replicate rfl 68) (by decide)

end Yggterm.Retirement
