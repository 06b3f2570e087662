import Mathlib.Data.List.DropRight
import Mathlib.Data.List.Infix
import Yggterm.InputLine.Cuts
import Yggterm.InputLine.Walk
import Yggterm.Library.Runs

/-!
# Submitting behind an echo

`submit_prompt_echo_verified_with` (`yggterm-server/src/terminal.rs`) types a marker into a
composer and submits its prompt only after the marker has come up on the screen.  Three parties
share the composer: the submit, the clients whose keystrokes the runtime records, and the program,
which may not read its terminal yet.  What arrives before it reads waits, and a beginning of that
may be lost.
-/

namespace Yggterm.EchoSubmit

open InputLine

/-! ## The program -/

/-- Who wrote a byte: a client, the submit while it probes, or the submit with its prompt. -/
inductive Author where
  | client
  | marker
  | prompt
  deriving DecidableEq

abbrev Cell := UInt8 × Author

structure Program where
  reading : Bool
  waiting : List (Author × List UInt8)
  walk : Grammar × Composer Cell
  /-- The lines that an Enter sent off. -/
  entered : List (List Cell)
  /-- The cells that the submit's own bytes removed from the line. -/
  taken : List Cell
  deriving DecidableEq

namespace Program

/-- A program at an empty line. -/
def blank : Program where
  reading := true
  waiting := []
  walk := (Grammar.ground, { line := [], draft := false })
  entered := []
  taken := []

/-- The byte sends the line off. -/
def sendsLine (program : Program) (byte : UInt8) : Bool :=
  program.walk.1 = Grammar.ground && (byte = 0x0d || byte = 0x0a)

def readByte (author : Author) (program : Program) (byte : UInt8) : Program :=
  let walked := walkByte (fun byte => (byte, author)) Prod.fst program.walk byte
  { program with
    walk := walked
    entered :=
      if program.sendsLine byte then program.entered ++ [program.walk.2.line]
      else program.entered
    taken :=
      if author = .client then program.taken
      else program.taken ++ program.walk.2.line.drop walked.2.line.length }

def feed (program : Program) (author : Author) (data : List UInt8) : Program :=
  data.foldl (readByte author) program

def feedAll (program : Program) (writes : List (Author × List UInt8)) : Program :=
  writes.foldl (fun program write => program.feed write.1 write.2) program

def receive (program : Program) (author : Author) (data : List UInt8) : Program :=
  if program.reading then program.feed author data
  else { program with waiting := program.waiting ++ [(author, data)] }

/-- The input loop comes up, and the oldest writes are lost. -/
def startReading (program : Program) (lost : Nat) : Program :=
  if program.reading then program
  else { program with reading := true, waiting := [] }.feedAll (program.waiting.drop lost)

end Program

/-! ## The submit -/

def probeText : List Char := "yggterm_ready_probe".toList

def probe : List UInt8 := probeText.map fun char => UInt8.ofNat char.toNat

def clearLine : List UInt8 := [0x15]

def probeSettle : Nat := 180

def retryInterval : Nat := 120

structure Request where
  key : String
  data : List UInt8
  timeoutMs : Nat
  deriving DecidableEq

/-- `data.trim_end_matches(['\r', '\n'])` -/
def Request.text (request : Request) : List UInt8 :=
  request.data.rdropWhile fun byte => byte = 0x0d || byte = 0x0a

inductive PromptSubmitOutcome where
  | submitted (waitedMs : Nat)
  | notReady (waitedMs : Nat)
  | noSession
  | humanTyping (waitedMs : Nat)
  deriving DecidableEq

/-- Where the submit stands.  A place with a moment is left no sooner than then. -/
inductive Place where
  | opening
  | asking
  | checking
  | probing
  | settling (wake : Nat)
  | clearing
  | typing (wake : Nat)
  | entering (wake : Nat)
  | rechecking
  | clearingRetry
  | judging
  | backingOff (wake : Nat)
  | finished (result : Except String PromptSubmitOutcome)
  deriving DecidableEq

structure State where
  /-- What the daemon recorded of the client's keystrokes. -/
  runtime : Runtime
  alive : Bool
  screen : List Char
  program : Program
  clock : Nat
  place : Place
  start : Nat
  retryBackoff : Nat
  probes : Nat
  deriving DecidableEq

/-- One move of one party.  The submit's comes with how its write fares. -/
inductive Action where
  | submit (outcome : EnqueueOutcome)
  | client (data : List UInt8) (programmatic : Bool) (outcome : EnqueueOutcome)
  | startReading (lost : Nat)
  | repaint (screen : List Char)
  | exit
  | pass (millis : Nat)
  deriving DecidableEq

namespace State

variable (request : Request)

def elapsed (state : State) : Nat := state.clock - state.start

/-- Unknown counts as typing. -/
def humanIsTyping (state : State) : Bool := !state.alive || state.runtime.pendingInputDraft

def echoed (state : State) : Bool := state.alive && decide (probeText <:+: state.screen)

/-- `write_daemon_originated`, which the runtime does not record. -/
def write (state : State) (author : Author) (data : List UInt8) (outcome : EnqueueOutcome) :
    Except String Unit × State :=
  if state.alive then
    ((writeDaemonOriginated request.key data outcome).1,
      { state with
        program :=
          state.program.receive author (writeDaemonOriginated request.key data outcome).2 })
  else (.error s!"terminal session not found: {request.key}", state)

def finish (state : State) (outcome : PromptSubmitOutcome) : State :=
  { state with place := .finished (.ok outcome) }

/-- `write(..)?`, and on to the next place. -/
def writeThen (state : State) (author : Author) (data : List UInt8) (outcome : EnqueueOutcome)
    (next : Place) : State :=
  let answer := state.write request author data outcome
  match answer.1 with
  | .ok () => { answer.2 with place := next }
  | .error error => { answer.2 with place := .finished (.error error) }

def submitStep (state : State) (outcome : EnqueueOutcome) : State :=
  match state.place with
  | .opening =>
      if state.alive then { state with place := .asking, start := state.clock }
      else state.finish .noSession
  | .asking =>
      if state.humanIsTyping then state.finish (.humanTyping 0)
      else { state with place := .checking, retryBackoff := retryInterval }
  | .checking =>
      if state.humanIsTyping then state.finish (.humanTyping state.elapsed)
      else { state with place := .probing }
  | .probing =>
      { state with probes := state.probes + 1 }.writeThen request .marker probe outcome
        (.settling (state.clock + probeSettle))
  | .settling wake =>
      if state.clock < wake then state
      else if state.echoed then { state with place := .clearing }
      else { state with place := .rechecking }
  | .clearing => state.writeThen request .marker clearLine outcome (.typing (state.clock + 60))
  | .typing wake =>
      if state.clock < wake then state
      else state.writeThen request .prompt request.text outcome (.entering (state.clock + 80))
  | .entering wake =>
      if state.clock < wake then state
      else
        state.writeThen request .prompt [0x0d] outcome
          (.finished (.ok (.submitted state.elapsed)))
  | .rechecking =>
      if state.humanIsTyping then state.finish (.humanTyping state.elapsed)
      else { state with place := .clearingRetry }
  | .clearingRetry => { (state.write request .marker clearLine outcome).2 with place := .judging }
  | .judging =>
      if request.timeoutMs ≤ state.elapsed then state.finish (.notReady state.elapsed)
      else
        { state with
          place := .backingOff (state.clock + min state.retryBackoff 2000)
          retryBackoff := min (state.retryBackoff * 2) 2000 }
  | .backingOff wake => if state.clock < wake then state else { state with place := .checking }
  | .finished _ => state

def step (state : State) : Action → State
  | .submit outcome => state.submitStep request outcome
  | .client data programmatic outcome =>
      if state.alive then
        let answer := state.runtime.writeWithProvenance request.key data programmatic outcome
        { state with
          runtime := answer.2
          program := state.program.receive .client answer.1.2 }
      else state
  | .startReading lost => { state with program := state.program.startReading lost }
  | .repaint screen => { state with screen }
  | .exit => { state with alive := false }
  | .pass millis => { state with clock := state.clock + millis }

end State

/-- Before the submit: nothing has been typed yet. -/
def initial (reading : Bool) (screen : List Char) : State where
  runtime := Runtime.fresh
  alive := true
  screen := screen
  program := { Program.blank with reading }
  clock := 0
  place := .opening
  start := 0
  retryBackoff := retryInterval
  probes := 0

/-! ## How often it probes -/

/-- The pause behind the probe of that number, counted from zero. -/
def backoffAt : Nat → Nat
  | 0 => retryInterval
  | count + 1 => min (backoffAt count * 2) 2000

/-- How long so many probes with their pauses take at least. -/
def paced : Nat → Nat
  | 0 => 0
  | count + 1 => paced count + probeSettle + backoffAt count

theorem backoffAt_le (count : Nat) : backoffAt count ≤ 2000 := by
  cases count with
  | zero => decide
  | succ count => exact Nat.min_le_right _ _

/-- The last probe but one was judged before the deadline. -/
def InTime (request : Request) (probes : Nat) : Prop :=
  ∀ count, probes = count + 1 → paced count + probeSettle < request.timeoutMs

/-- The probes so far took their time, and all but the last were judged before the deadline. -/
structure Slow (request : Request) (state : State) : Prop where
  elapsed : state.start + paced (state.probes - 1) ≤ state.clock
  inTime : InTime request (state.probes - 1)

inductive Phase where
  | fresh
  | ready
  | probed
  | last

def Place.phase : Place → Phase
  | .opening | .asking => .fresh
  | .checking | .probing | .backingOff _ => .ready
  | .settling _ | .rechecking | .clearingRetry | .judging => .probed
  | .clearing | .typing _ | .entering _ | .finished _ => .last

/-- When the submit moves on. -/
def Place.due (clock : Nat) : Place → Nat
  | .settling wake | .backingOff wake => wake
  | _ => clock

/-- The pace as it is known in each phase. -/
def PacedIn (request : Request) (state : State) (due : Nat) : Phase → Prop
  | .fresh => state.probes = 0
  | .ready => state.retryBackoff = backoffAt state.probes ∧
      state.start + paced state.probes ≤ due ∧ InTime request state.probes
  | .probed => ∃ count, state.probes = count + 1 ∧ state.retryBackoff = backoffAt count ∧
      state.start + paced count + probeSettle ≤ due
  | .last => True

structure Paced (request : Request) (state : State) : Prop where
  slow : Slow request state
  known : PacedIn request state (state.place.due state.clock) state.place.phase

namespace State

variable {request : Request} {state : State}

/-- A write changes the program and moves on, or fails. -/
theorem exists_writeThen (request : Request) (state : State) (author : Author)
    (data : List UInt8) (outcome : EnqueueOutcome) (next : Place) : ∃ program place,
    state.writeThen request author data outcome next = { state with program, place } ∧
      (place = next ∨ ∃ error, place = .finished (.error error)) := by
  unfold writeThen write
  split_ifs
  · cases (writeDaemonOriginated request.key data outcome).1 with
    | error error => exact ⟨_, _, rfl, .inr ⟨error, rfl⟩⟩
    | ok => exact ⟨_, _, rfl, .inl rfl⟩
  · exact ⟨_, _, rfl, .inr ⟨_, rfl⟩⟩

theorem paced_finish (slow : Slow request state) (outcome : PromptSubmitOutcome) :
    Paced request (state.finish outcome) := ⟨⟨slow.elapsed, slow.inTime⟩, trivial⟩

theorem paced_writeThen {author : Author} {data : List UInt8} {next : Place}
    (slow : Slow request state) (known : PacedIn request state (next.due state.clock) next.phase)
    (outcome : EnqueueOutcome) :
    Paced request (state.writeThen request author data outcome next) := by
  obtain ⟨program, place, isWritten, isNext⟩ :=
    exists_writeThen request state author data outcome next
  rw [isWritten]
  rcases isNext with rfl | ⟨error, rfl⟩
  · exact ⟨⟨slow.elapsed, slow.inTime⟩, known⟩
  · exact ⟨⟨slow.elapsed, slow.inTime⟩, trivial⟩

theorem paced_judging {count : Nat} (isPaced : Paced request state)
    (isCount : state.probes = count + 1) (backoff : state.retryBackoff = backoffAt count)
    (elapsed : state.start + paced count + probeSettle ≤ state.clock)
    (early : ¬ request.timeoutMs ≤ state.elapsed) :
    Paced request
      { state with
        place := .backingOff (state.clock + min state.retryBackoff 2000)
        retryBackoff := min (state.retryBackoff * 2) 2000 } := by
  have shortPause := backoffAt_le count
  unfold State.elapsed at early
  refine ⟨⟨isPaced.slow.elapsed, isPaced.slow.inTime⟩, ?_, ?_, ?_⟩
  · change min (state.retryBackoff * 2) 2000 = backoffAt state.probes
    rw [backoff, isCount]
    rfl
  · change state.start + paced state.probes ≤ state.clock + min state.retryBackoff 2000
    rw [isCount, backoff, Nat.min_eq_left shortPause, paced]
    omega
  · intro other isOther
    change state.probes = other + 1 at isOther
    obtain rfl : other = count := by omega
    omega

theorem paced_submitStep (isPaced : Paced request state) (outcome : EnqueueOutcome) :
    Paced request (state.submitStep request outcome) := by
  obtain ⟨slow, known⟩ := isPaced
  unfold submitStep
  cases place : state.place with
  | opening =>
      rw [place] at known
      dsimp only
      split_ifs
      · have none : state.probes = 0 := known
        refine ⟨⟨?_, slow.inTime⟩, known⟩
        change state.clock + paced (state.probes - 1) ≤ state.clock
        rw [none]
        exact le_refl _
      · exact paced_finish slow _
  | asking =>
      rw [place] at known
      have none : state.probes = 0 := known
      dsimp only
      split_ifs
      · exact paced_finish slow _
      · refine ⟨⟨slow.elapsed, slow.inTime⟩, ?_, ?_, ?_⟩
        · change retryInterval = backoffAt state.probes
          rw [none]
          rfl
        · have elapsed := slow.elapsed
          change state.start + paced state.probes ≤ state.clock
          rwa [none] at elapsed ⊢
        · intro count isCount
          rw [none] at isCount
          cases isCount
  | checking =>
      rw [place] at known
      dsimp only
      split_ifs
      · exact paced_finish slow _
      · exact ⟨⟨slow.elapsed, slow.inTime⟩, known⟩
  | probing =>
      rw [place] at known
      obtain ⟨backoff, elapsed, inTime⟩ := known
      have slowAfter :
          Slow request { state with place := .probing, probes := state.probes + 1 } :=
        ⟨elapsed, inTime⟩
      have settles : state.start + paced state.probes + probeSettle ≤ state.clock + probeSettle :=
        Nat.add_le_add_right elapsed probeSettle
      refine paced_writeThen slowAfter ?_ outcome
      exact ⟨state.probes, rfl, backoff, settles⟩
  | settling wake =>
      rw [place] at known
      obtain ⟨count, isCount, backoff, elapsed⟩ := known
      dsimp only
      split_ifs with early
      · exact ⟨slow, by rw [place]; exact ⟨count, isCount, backoff, elapsed⟩⟩
      · exact ⟨⟨slow.elapsed, slow.inTime⟩, trivial⟩
      · refine ⟨⟨slow.elapsed, slow.inTime⟩, count, isCount, backoff, ?_⟩
        exact elapsed.trans (Nat.le_of_not_lt early)
  | clearing =>
      refine paced_writeThen slow ?_ outcome
      trivial
  | typing wake =>
      dsimp only
      split_ifs
      · exact ⟨slow, known⟩
      · refine paced_writeThen slow ?_ outcome
        trivial
  | entering wake =>
      dsimp only
      split_ifs
      · exact ⟨slow, known⟩
      · refine paced_writeThen slow ?_ outcome
        trivial
  | rechecking =>
      rw [place] at known
      dsimp only
      split_ifs
      · exact paced_finish slow _
      · exact ⟨⟨slow.elapsed, slow.inTime⟩, known⟩
  | clearingRetry =>
      rw [place] at known
      unfold write
      dsimp only
      split_ifs
      · exact ⟨⟨slow.elapsed, slow.inTime⟩, known⟩
      · exact ⟨⟨slow.elapsed, slow.inTime⟩, known⟩
  | judging =>
      have isPaced : Paced request state := ⟨slow, known⟩
      rw [place] at known
      obtain ⟨count, isCount, backoff, elapsed⟩ := known
      dsimp only
      split_ifs with early
      · exact paced_finish slow _
      · exact paced_judging isPaced isCount backoff elapsed early
  | backingOff wake =>
      rw [place] at known
      obtain ⟨backoff, elapsed, inTime⟩ := known
      dsimp only
      split_ifs with early
      · exact ⟨slow, by rw [place]; exact ⟨backoff, elapsed, inTime⟩⟩
      · refine ⟨⟨slow.elapsed, slow.inTime⟩, backoff, ?_, inTime⟩
        exact elapsed.trans (Nat.le_of_not_lt early)
  | finished result => exact ⟨slow, known⟩

theorem step_paced (state : State) (action : Action) (isPaced : Paced request state) :
    Paced request (state.step request action) := by
  cases action with
  | submit outcome => exact paced_submitStep isPaced outcome
  | client data programmatic outcome =>
      unfold step
      dsimp only
      split_ifs
      · exact ⟨⟨isPaced.slow.elapsed, isPaced.slow.inTime⟩, isPaced.known⟩
      · exact isPaced
  | startReading | repaint | exit =>
      exact ⟨⟨isPaced.slow.elapsed, isPaced.slow.inTime⟩, isPaced.known⟩
  | pass millis =>
      obtain ⟨slow, known⟩ := isPaced
      refine ⟨⟨slow.elapsed.trans (Nat.le_add_right _ _), slow.inTime⟩, ?_⟩
      have later : state.place.due state.clock ≤ state.place.due (state.clock + millis) := by
        unfold Place.due
        split
        · exact le_refl _
        · exact le_refl _
        · exact Nat.le_add_right _ _
      change PacedIn request _ (state.place.due (state.clock + millis)) state.place.phase
      cases phase : state.place.phase with
      | fresh => rw [phase] at known; exact known
      | ready =>
          rw [phase] at known
          exact ⟨known.1, known.2.1.trans later, known.2.2⟩
      | probed =>
          rw [phase] at known
          obtain ⟨count, isCount, backoff, elapsed⟩ := known
          exact ⟨count, isCount, backoff, elapsed.trans later⟩
      | last => trivial

/-- In every interleaving, the probes keep their distance and stop at the deadline. -/
theorem probes_are_paced (request : Request) (reading : Bool) (screen : List Char)
    (actions : List Action) :
    let final := Runs.run (State.step request) (initial reading screen) actions
    paced (final.probes - 1) ≤ final.elapsed ∧
      ∀ count, final.probes = count + 2 → paced count + probeSettle < request.timeoutMs := by
  have initially : Paced request (initial reading screen) :=
    ⟨⟨le_refl _, (fun _ isCount => by cases isCount)⟩, rfl⟩
  intro final
  have isPaced : Paced request final :=
    Runs.run_invariant (fun state action => step_paced state action) initially actions
  refine ⟨?_, fun count isCount => isPaced.slow.inTime count ?_⟩
  · have elapsed := isPaced.slow.elapsed
    unfold State.elapsed
    omega
  · rw [isCount]
    rfl

/-- In half a minute it probes eighteen times at most. -/
example : ∀ count < 100, paced count + probeSettle < 30000 → count + 2 ≤ 18 := by decide

end State

end Yggterm.EchoSubmit
