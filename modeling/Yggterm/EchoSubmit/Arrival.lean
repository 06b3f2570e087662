import Yggterm.EchoSubmit.Parties
import Yggterm.InputLine.Provenance

/-!
# A submitted prompt arrives

The marker comes up on the screen only when the program reads, and what a reading program is sent
it takes in the order it was sent.  So the lines of the prompt are sent off from an empty line, and
a submit that ends in any other way has not written a byte of its prompt.
-/

namespace Yggterm.EchoSubmit

open InputLine Runs

/-! ## Feeding a program -/

/-- The lines that the bytes send off. -/
def linesSent (author : Author) (walk : Grammar × Composer Cell) :
    List UInt8 → List (List Cell)
  | [] => []
  | byte :: rest =>
      (if walk.1 = Grammar.ground && (byte = 0x0d || byte = 0x0a) then [walk.2.line] else []) ++
        linesSent author (walkByte (fun byte => (byte, author)) Prod.fst walk byte) rest

namespace Program

variable (program : Program) (author : Author)

theorem readByte_entered (byte : UInt8) :
    (readByte author program byte).entered =
      if program.sendsLine byte then program.entered ++ [program.walk.2.line]
      else program.entered := rfl

@[simp]
theorem feed_nil : program.feed author [] = program := rfl

@[simp]
theorem feed_cons (byte : UInt8) (rest : List UInt8) :
    program.feed author (byte :: rest) = (readByte author program byte).feed author rest := rfl

@[simp]
theorem feed_append (first second : List UInt8) :
    program.feed author (first ++ second) = (program.feed author first).feed author second :=
  List.foldl_append

theorem feed_walk (data : List UInt8) :
    (program.feed author data).walk =
      walkBytes (fun byte => (byte, author)) Prod.fst program.walk data := by
  induction data generalizing program with
  | nil => rfl
  | cons byte rest inductionHypothesis =>
      rw [feed_cons, inductionHypothesis]
      rfl

@[simp]
theorem feed_reading (data : List UInt8) :
    (program.feed author data).reading = program.reading := by
  induction data generalizing program with
  | nil => rfl
  | cons byte rest inductionHypothesis =>
      rw [feed_cons, inductionHypothesis]
      rfl

@[simp]
theorem feed_waiting (data : List UInt8) :
    (program.feed author data).waiting = program.waiting := by
  induction data generalizing program with
  | nil => rfl
  | cons byte rest inductionHypothesis =>
      rw [feed_cons, inductionHypothesis]
      rfl

theorem feed_entered (data : List UInt8) :
    (program.feed author data).entered = program.entered ++ linesSent author program.walk data := by
  induction data generalizing program with
  | nil => simp [linesSent]
  | cons byte rest inductionHypothesis =>
      rw [feed_cons, inductionHypothesis, linesSent]
      rw [readByte_entered, sendsLine]
      split <;> simp [readByte]

theorem feed_ground {data : List UInt8} (settled : Settled data)
    (ground : program.walk.1 = Grammar.ground) :
    (program.feed author data).walk.1 = Grammar.ground := by
  rw [feed_walk, walkBytes_fst, ground]
  exact (settled_iff data).mp settled

theorem receive_of_reading (reading : program.reading = true) (data : List UInt8) :
    program.receive author data = program.feed author data := by
  rw [receive, if_pos reading]

theorem receive_of_not_reading (notReading : program.reading = false) (data : List UInt8) :
    program.receive author data =
      { program with waiting := program.waiting ++ [(author, data)] } := by
  rw [receive, notReading]
  rfl

end Program

/-- A byte puts at most its own cell on the line. -/
theorem mem_type {composer : Composer Cell} {author : Author} {pasteDepth : Nat} {byte : UInt8}
    {cell : Cell}
    (member : cell ∈ (composer.type (fun byte => (byte, author)) Prod.fst pasteDepth byte).line) :
    cell ∈ composer.line ∨ cell = (byte, author) := by
  have appended : ∀ line : List Cell, cell ∈ line ++ [(byte, author)] →
      cell ∈ line ∨ cell = (byte, author) := by
    intro line inLine
    rcases List.mem_append.mp inLine with old | new
    · exact .inl old
    · exact .inr (List.mem_singleton.mp new)
  unfold Composer.type at member
  split_ifs at member
  · cases member
  · exact appended _ member
  · cases member
  · exact .inl member
  · exact .inl ((popScalar_isPrefix composer.line).subset member)
  · exact appended _ member
  · exact appended _ member
  · exact .inl member

theorem mem_walkByte {walk : Grammar × Composer Cell} {author : Author} {byte : UInt8}
    {cell : Cell}
    (member : cell ∈ (walkByte (fun byte => (byte, author)) Prod.fst walk byte).2.line) :
    cell ∈ walk.2.line ∨ cell = (byte, author) := by
  unfold walkByte at member
  split_ifs at member
  · exact mem_type member
  · exact .inl member

/-! ## Before the prompt -/

/-- No byte of the prompt has reached the terminal. -/
structure Program.Untouched (program : Program) : Prop where
  line : ∀ cell ∈ program.walk.2.line, cell.2 ≠ .prompt
  entered : ∀ line ∈ program.entered, ∀ cell ∈ line, cell.2 ≠ .prompt
  waiting : ∀ write ∈ program.waiting, write.1 ≠ .prompt

/-- The program stands between two whole writes. -/
structure Program.Grounded (program : Program) : Prop where
  ground : program.walk.1 = Grammar.ground
  settled : ∀ write ∈ program.waiting, Settled write.2

namespace Program

variable {program : Program} {author : Author} {data : List UInt8}

theorem Untouched.readByte (untouched : program.Untouched) (other : author ≠ .prompt)
    (byte : UInt8) : (Program.readByte author program byte).Untouched := by
  refine ⟨?_, ?_, untouched.waiting⟩
  · intro cell member
    rcases mem_walkByte member with old | rfl
    · exact untouched.line cell old
    · exact other
  · intro line member
    rw [readByte_entered] at member
    split_ifs at member with sends
    · rcases List.mem_append.mp member with old | new
      · exact untouched.entered line old
      · rw [List.mem_singleton.mp new]
        exact untouched.line
    · exact untouched.entered line member

theorem Untouched.feed (untouched : program.Untouched) (other : author ≠ .prompt)
    (data : List UInt8) : (program.feed author data).Untouched := by
  induction data generalizing program with
  | nil => exact untouched
  | cons byte rest inductionHypothesis => exact inductionHypothesis (untouched.readByte other byte)

theorem Untouched.receive (untouched : program.Untouched) (other : author ≠ .prompt)
    (data : List UInt8) : (program.receive author data).Untouched := by
  by_cases reading : program.reading = true
  · rw [receive_of_reading _ _ reading]
    exact untouched.feed other data
  · rw [receive_of_not_reading _ _ (Bool.eq_false_iff.mpr reading)]
    exact ⟨untouched.line, untouched.entered, List.forall_mem_append.mpr
      ⟨untouched.waiting, List.forall_mem_singleton.mpr other⟩⟩

theorem Untouched.feedAll {writes : List (Author × List UInt8)} (untouched : program.Untouched)
    (others : ∀ write ∈ writes, write.1 ≠ .prompt) : (program.feedAll writes).Untouched := by
  induction writes generalizing program with
  | nil => exact untouched
  | cons write rest inductionHypothesis =>
      obtain ⟨other, restOthers⟩ := List.forall_mem_cons.mp others
      exact inductionHypothesis (untouched.feed other write.2) restOthers

theorem Untouched.startReading (untouched : program.Untouched) (lost : Nat) :
    (program.startReading lost).Untouched := by
  unfold Program.startReading
  split
  · exact untouched
  · refine Untouched.feedAll ⟨untouched.line, untouched.entered, List.forall_mem_nil _⟩ ?_
    exact fun write member => untouched.waiting write (List.mem_of_mem_drop member)

theorem Grounded.feed (grounded : program.Grounded) (author : Author) (settled : Settled data) :
    (program.feed author data).Grounded :=
  ⟨feed_ground _ _ settled grounded.ground, by rw [feed_waiting]; exact grounded.settled⟩

theorem Grounded.receive (grounded : program.Grounded) (author : Author)
    (settled : Settled data) : (program.receive author data).Grounded := by
  by_cases reading : program.reading = true
  · rw [receive_of_reading _ _ reading]
    exact grounded.feed author settled
  · rw [receive_of_not_reading _ _ (Bool.eq_false_iff.mpr reading)]
    exact ⟨grounded.ground, List.forall_mem_append.mpr
      ⟨grounded.settled, List.forall_mem_singleton.mpr settled⟩⟩

theorem Grounded.feedAll {writes : List (Author × List UInt8)} (grounded : program.Grounded)
    (settled : ∀ write ∈ writes, Settled write.2) : (program.feedAll writes).Grounded := by
  induction writes generalizing program with
  | nil => exact grounded
  | cons write rest inductionHypothesis =>
      obtain ⟨writeSettled, restSettled⟩ := List.forall_mem_cons.mp settled
      exact inductionHypothesis (grounded.feed write.1 writeSettled) restSettled

theorem Grounded.startReading (grounded : program.Grounded) (lost : Nat) :
    (program.startReading lost).Grounded := by
  unfold Program.startReading
  split
  · exact grounded
  · refine Grounded.feedAll ⟨grounded.ground, List.forall_mem_nil _⟩ ?_
    exact fun write member => grounded.settled write (List.mem_of_mem_drop member)

theorem startReading_of_reading (reading : program.reading = true) (lost : Nat) :
    program.startReading lost = program := by
  rw [startReading, if_pos reading]

theorem exists_entered_receive (program : Program) (author : Author) (data : List UInt8) :
    ∃ lines, (program.receive author data).entered = program.entered ++ lines := by
  unfold receive
  split
  · exact ⟨_, feed_entered _ _ _⟩
  · exact ⟨[], (List.append_nil _).symm⟩

theorem exists_entered_feedAll (program : Program) (writes : List (Author × List UInt8)) :
    ∃ lines, (program.feedAll writes).entered = program.entered ++ lines := by
  induction writes generalizing program with
  | nil => exact ⟨[], (List.append_nil _).symm⟩
  | cons write rest inductionHypothesis =>
      obtain ⟨lines, isEntered⟩ := inductionHypothesis (program.feed write.1 write.2)
      refine ⟨linesSent write.1 program.walk write.2 ++ lines, ?_⟩
      rw [← List.append_assoc, ← feed_entered]
      exact isEntered

theorem exists_entered_startReading (program : Program) (lost : Nat) :
    ∃ lines, (program.startReading lost).entered = program.entered ++ lines := by
  unfold startReading
  split
  · exact ⟨[], (List.append_nil _).symm⟩
  · exact exists_entered_feedAll _ _

@[simp]
theorem receive_reading (program : Program) (author : Author) (data : List UInt8) :
    (program.receive author data).reading = program.reading := by
  unfold receive
  split
  · exact feed_reading _ _ _
  · rfl

end Program

/-! ## The submit -/

/-- The places between the echo and the Enter. -/
def Place.committed : Place → Bool
  | .clearing | .typing _ | .entering _ => true
  | _ => false

def Place.isFinished : Place → Bool
  | .finished _ => true
  | _ => false

def Place.isSettling : Place → Bool
  | .settling _ => true
  | _ => false

/-- Clients type whole pieces and not between the echo and the Enter; the marker is on the screen
only when the program reads. -/
def Attentive (state : State) : Action → Prop
  | .client data _ _ =>
      state.place.isFinished = false → Settled data ∧ state.place.committed = false
  | .submit _ => state.place.isSettling = true → state.echoed = true → state.program.reading = true
  | _ => True

instance (state : State) : (action : Action) → Decidable (Attentive state action)
  | .client _ _ _ => inferInstanceAs (Decidable (_ → _))
  | .submit _ => inferInstanceAs (Decidable (_ → _))
  | .startReading _ | .repaint _ | .exit | .pass _ => .isTrue trivial

/-- The lines that the prompt and its Enter send off from an empty line. -/
def promptLines (request : Request) : List (List Cell) :=
  linesSent .prompt Program.blank.walk (request.text ++ [0x0d])

/-- No control bytes. -/
def Plain (text : List UInt8) : Prop := ∀ byte ∈ text, 0x20 ≤ byte ∧ byte ≠ 0x7f

instance (text : List UInt8) : Decidable (Plain text) :=
  inferInstanceAs (Decidable (∀ byte ∈ text, 0x20 ≤ byte ∧ byte ≠ 0x7f))

/-- A byte that is no control byte goes on the line. -/
theorem exists_walkByte_of_plain (author : Author) {byte : UInt8}
    (plain : 0x20 ≤ byte ∧ byte ≠ 0x7f) (composer : Composer Cell) : ∃ draft,
    walkByte (fun byte => (byte, author)) Prod.fst (Grammar.ground, composer) byte =
      (Grammar.ground, { line := composer.line ++ [(byte, author)], draft }) := by
  obtain ⟨printable, notDelete⟩ := plain
  have notControl : ∀ control : UInt8, control < 0x20 → byte ≠ control := by
    rintro control below rfl
    exact absurd printable (by simpa using below)
  have notEscape : byte ≠ 0x1b := notControl 0x1b (by decide)
  have stays : Grammar.step Grammar.ground byte = Grammar.ground := by
    simp [Grammar.step, Grammar.ground, notEscape]
  unfold walkByte
  rw [stays, if_pos ⟨rfl, notEscape⟩]
  unfold Composer.type
  rw [if_neg (not_or.mpr ⟨notControl 0x0d (by decide), notControl 0x0a (by decide)⟩),
    if_neg (not_or.mpr ⟨notControl 0x03 (by decide), notControl 0x15 (by decide)⟩),
    if_neg (not_or.mpr ⟨notControl 0x08 (by decide), notDelete⟩)]
  by_cases space : byte = 0x20
  · exact ⟨composer.draft, by rw [if_neg (by simp [space]), if_pos (.inl space)]⟩
  · exact ⟨true, by rw [if_pos ⟨printable, space, notControl 0x09 (by decide)⟩]⟩

theorem linesSent_of_plain (author : Author) {text : List UInt8} (plain : Plain text)
    (composer : Composer Cell) :
    linesSent author (Grammar.ground, composer) (text ++ [0x0d]) =
      [composer.line ++ text.map fun byte => (byte, author)] := by
  induction text generalizing composer with
  | nil => simp [linesSent]
  | cons byte rest inductionHypothesis =>
      obtain ⟨bytePlain, restPlain⟩ := List.forall_mem_cons.mp plain
      obtain ⟨draft, walked⟩ := exists_walkByte_of_plain author bytePlain composer
      have notEnter : (byte = 0x0d || byte = 0x0a) = false := by
        have notBelow : ∀ control : UInt8, control < 0x20 → byte ≠ control := by
          rintro control below rfl
          exact absurd bytePlain.1 (by simpa using below)
        simp [notBelow 0x0d (by decide), notBelow 0x0a (by decide)]
      rw [List.cons_append, linesSent, walked, inductionHypothesis restPlain, notEnter]
      simp

/-- A plain prompt is one line. -/
theorem promptLines_of_plain {request : Request} (plain : Plain request.text) :
    promptLines request = [request.text.map fun byte => (byte, .prompt)] :=
  linesSent_of_plain .prompt plain _

/-- A submitted prompt was sent off whole; of one that is given up nothing was typed. -/
def Delivers (request : Request) (state : State) : Prop :=
  match state.place with
  | .finished (.ok (.submitted _)) =>
      ∃ before after, state.program.entered = before ++ (promptLines request ++ after) ∧
        ∀ line ∈ before, ∀ cell ∈ line, cell.2 ≠ .prompt
  | .finished (.ok _) => state.program.Untouched
  | _ => True

/-- What is known of the program where the submit stands. -/
def Promise (request : Request) (place : Place) (program : Program) : Prop :=
  match place with
  | .clearing => program.Untouched ∧ program.Grounded ∧ program.reading = true
  | .typing _ =>
      program.Untouched ∧ program.reading = true ∧ program.walk = Program.blank.walk
  | .entering _ => ∃ before : Program, before.Untouched ∧ before.reading = true ∧
      before.walk = Program.blank.walk ∧ program = before.feed .prompt request.text
  | .finished (.ok (.submitted _)) =>
      ∃ before after, program.entered = before ++ (promptLines request ++ after) ∧
        ∀ line ∈ before, ∀ cell ∈ line, cell.2 ≠ .prompt
  | .finished (.ok _) => program.Untouched
  | .finished (.error _) => True
  | _ => program.Untouched ∧ program.Grounded

theorem Promise.delivers {request : Request} {state : State}
    (promise : Promise request state.place state.program) : Delivers request state := by
  unfold Delivers
  cases place : state.place with
  | finished result =>
      rw [place] at promise
      cases result with
      | error error => trivial
      | ok outcome => cases outcome <;> exact promise
  | _ => trivial

theorem settled_probe : Settled probe := by decide

theorem settled_clearLine : Settled clearLine := by decide

theorem settled_nil : Settled [] := by decide

/-- An enqueue passes all of the data on, or nothing. -/
theorem writeDaemonOriginated_snd (key : String) (data : List UInt8) (outcome : EnqueueOutcome) :
    (writeDaemonOriginated key data outcome).2 = data ∨
      (writeDaemonOriginated key data outcome).2 = [] := by
  unfold writeDaemonOriginated
  split_ifs with empty sent
  · exact .inr rfl
  · exact .inl rfl
  · exact .inr rfl

theorem settled_writeDaemonOriginated {data : List UInt8} (settled : Settled data) (key : String)
    (outcome : EnqueueOutcome) : Settled (writeDaemonOriginated key data outcome).2 := by
  rcases writeDaemonOriginated_snd key data outcome with whole | nothing
  · rwa [whole]
  · rw [nothing]
    exact settled_nil

theorem writeDaemonOriginated_of_ok {key : String} {data : List UInt8} {outcome : EnqueueOutcome}
    (ok : (writeDaemonOriginated key data outcome).1 = .ok ()) :
    (writeDaemonOriginated key data outcome).2 = data := by
  by_cases empty : data = []
  · simp [writeDaemonOriginated, empty]
  · cases outcome <;>
      simp_all [writeDaemonOriginated, EnqueueOutcome.result, EnqueueOutcome.sent]

/-- What the other parties may do to a program: nothing between the echo and the Enter. -/
theorem Promise.change {request : Request} {place : Place} {program changed : Program}
    (promise : Promise request place program)
    (calm : place.committed = true → changed = program)
    (untouched : program.Untouched → changed.Untouched)
    (grounded : place.isFinished = false → program.Grounded → changed.Grounded)
    (entered : ∃ lines, changed.entered = program.entered ++ lines) :
    Promise request place changed := by
  cases place with
  | clearing | typing | entering =>
      rw [calm rfl]
      exact promise
  | finished result =>
      cases result with
      | error error => trivial
      | ok outcome =>
          cases outcome with
          | submitted waitedMs =>
              obtain ⟨before, after, sent, clean⟩ := promise
              obtain ⟨lines, grown⟩ := entered
              exact ⟨before, after ++ lines, by rw [grown, sent]; simp, clean⟩
          | notReady | noSession | humanTyping => exact untouched promise
  | _ => exact ⟨untouched promise.1, grounded rfl promise.2⟩

namespace State

variable {request : Request} {state : State}

/-- A write that must succeed: the submit fails, or the program got the data. -/
theorem writeThen_cases (author : Author) (data : List UInt8) (outcome : EnqueueOutcome)
    (next : Place) :
    (∃ error, (state.writeThen request author data outcome next).place =
      .finished (.error error)) ∨
    ((state.writeThen request author data outcome next).place = next ∧
      (state.writeThen request author data outcome next).program =
        state.program.receive author data) := by
  unfold writeThen write
  split_ifs with alive
  · cases answer : (writeDaemonOriginated request.key data outcome).1 with
    | error error => exact .inl ⟨error, by simp only⟩
    | ok =>
        refine .inr ⟨by simp only, ?_⟩
        simp only
        rw [writeDaemonOriginated_of_ok answer]
  · exact .inl ⟨_, rfl⟩

theorem promise_writeThen (author : Author) (data : List UInt8) (outcome : EnqueueOutcome)
    {next : Place} (promise : Promise request next (state.program.receive author data)) :
    Promise request (state.writeThen request author data outcome next).place
      (state.writeThen request author data outcome next).program := by
  rcases writeThen_cases author data outcome next with ⟨error, failed⟩ | ⟨goesOn, received⟩
  · rw [failed]
    trivial
  · rwa [goesOn, received]

theorem feed_clearLine_of_ground {program : Program} (ground : program.walk.1 = Grammar.ground) :
    (program.feed .marker clearLine).walk = Program.blank.walk := by
  rw [Program.feed_walk]
  generalize program.walk = walk at ground
  obtain ⟨grammar, composer⟩ := walk
  obtain rfl : grammar = Grammar.ground := ground
  rfl

theorem promise_submitStep (outcome : EnqueueOutcome)
    (attentive : Attentive state (.submit outcome))
    (promise : Promise request state.place state.program) :
    Promise request (state.submitStep request outcome).place
      (state.submitStep request outcome).program := by
  unfold submitStep
  cases place : state.place with
  | opening =>
      rw [place] at promise
      dsimp only
      split_ifs
      · exact promise
      · exact promise.1
  | asking =>
      rw [place] at promise
      dsimp only
      split_ifs
      · exact promise.1
      · exact promise
  | checking =>
      rw [place] at promise
      dsimp only
      split_ifs
      · exact promise.1
      · exact promise
  | probing =>
      rw [place] at promise
      obtain ⟨untouched, grounded⟩ := promise
      exact promise_writeThen .marker probe outcome
        ⟨untouched.receive (by decide) probe, grounded.receive .marker settled_probe⟩
  | settling wake =>
      have reads := attentive (by rw [place]; rfl)
      rw [place] at promise
      dsimp only
      split_ifs with early echoed
      · rwa [place]
      · exact ⟨promise.1, promise.2, reads echoed⟩
      · exact promise
  | clearing =>
      rw [place] at promise
      obtain ⟨untouched, grounded, reading⟩ := promise
      refine promise_writeThen .marker clearLine outcome
        ⟨untouched.receive (by decide) clearLine, ?_, ?_⟩
      · rw [Program.receive_reading]
        exact reading
      · rw [Program.receive_of_reading _ _ reading]
        exact feed_clearLine_of_ground grounded.ground
  | typing wake =>
      rw [place] at promise
      obtain ⟨untouched, reading, atBlank⟩ := promise
      dsimp only
      split_ifs
      · rw [place]
        exact ⟨untouched, reading, atBlank⟩
      · exact promise_writeThen .prompt request.text outcome
          ⟨state.program, untouched, reading, atBlank, Program.receive_of_reading _ _ reading _⟩
  | entering wake =>
      rw [place] at promise
      dsimp only
      split_ifs
      · rwa [place]
      · obtain ⟨before, untouched, reading, atBlank, isFed⟩ := promise
        refine promise_writeThen .prompt [0x0d] outcome
          ⟨before.entered, [], ?_, untouched.entered⟩
        have stillReading : state.program.reading = true := by
          rw [isFed, Program.feed_reading]
          exact reading
        rw [Program.receive_of_reading _ _ stillReading, isFed, ← Program.feed_append,
          Program.feed_entered, atBlank, List.append_nil]
        rfl
  | rechecking =>
      rw [place] at promise
      dsimp only
      split_ifs
      · exact promise.1
      · exact promise
  | clearingRetry =>
      rw [place] at promise
      obtain ⟨untouched, grounded⟩ := promise
      change (_ : Program).Untouched ∧ (_ : Program).Grounded
      unfold write
      dsimp only
      split_ifs
      · exact ⟨untouched.receive (by decide) _, grounded.receive .marker
          (settled_writeDaemonOriginated settled_clearLine request.key outcome)⟩
      · exact ⟨untouched, grounded⟩
  | judging =>
      rw [place] at promise
      dsimp only
      split_ifs
      · exact promise.1
      · exact promise
  | backingOff wake =>
      rw [place] at promise
      dsimp only
      split_ifs
      · rwa [place]
      · exact promise
  | finished result =>
      rw [place] at promise
      dsimp only
      rwa [place]

theorem promise_client (data : List UInt8) (programmatic : Bool) (outcome : EnqueueOutcome)
    (attentive : Attentive state (.client data programmatic outcome))
    (promise : Promise request state.place state.program) :
    Promise request (state.step request (.client data programmatic outcome)).place
      (state.step request (.client data programmatic outcome)).program := by
  have passedOn :
      (state.runtime.writeWithProvenance request.key data programmatic outcome).1.2 = data ∨
        (state.runtime.writeWithProvenance request.key data programmatic outcome).1.2 = [] := by
    unfold Runtime.writeWithProvenance
    split_ifs
    · exact .inr rfl
    · exact writeDaemonOriginated_snd _ _ _
  unfold step
  dsimp only
  split_ifs
  · refine promise.change ?_ (fun untouched => untouched.receive (by decide) _) ?_
      (Program.exists_entered_receive _ _ _)
    · intro committed
      have unfinished : state.place.isFinished = false := by
        cases place : state.place with
        | finished => rw [place] at committed; cases committed
        | _ => rfl
      exact absurd committed (by rw [(attentive unfinished).2]; decide)
    · intro unfinished grounded
      rcases passedOn with whole | nothing
      · rw [whole]
        exact grounded.receive .client (attentive unfinished).1
      · rw [nothing]
        exact grounded.receive .client settled_nil
  · exact promise

theorem promise_startReading (lost : Nat) (promise : Promise request state.place state.program) :
    Promise request state.place (state.program.startReading lost) := by
  refine promise.change ?_ (fun untouched => untouched.startReading lost)
    (fun _ grounded => grounded.startReading lost) (Program.exists_entered_startReading _ _)
  intro committed
  refine Program.startReading_of_reading ?_ lost
  cases place : state.place with
  | clearing => rw [place] at promise; exact promise.2.2
  | typing => rw [place] at promise; exact promise.2.1
  | entering =>
      rw [place] at promise
      obtain ⟨before, _, reading, _, isFed⟩ := promise
      rw [isFed, Program.feed_reading]
      exact reading
  | _ => rw [place] at committed; cases committed

theorem step_promise (state : State) (action : Action)
    (promise : Promise request state.place state.program) (attentive : Attentive state action) :
    Promise request (state.step request action).place (state.step request action).program := by
  cases action with
  | submit outcome => exact promise_submitStep outcome attentive promise
  | client data programmatic outcome =>
      exact promise_client data programmatic outcome attentive promise
  | startReading lost => exact promise_startReading lost promise
  | repaint | exit | pass => exact promise

/-- A client clears its line, the program misses the first probe, and the second one comes up. -/
def lateProgram : List Action :=
  List.flatten [
    [.client [0x61] false .flushed, .client [0x15] false .flushed],
    List.replicate 4 (.submit .flushed), [.pass 180],
    List.replicate 4 (.submit .flushed), [.startReading 3, .pass 120],
    List.replicate 3 (.submit .flushed), [.repaint ("> ".toList ++ probeText), .pass 180],
    List.replicate 2 (.submit .flushed), [.pass 60, .submit .flushed, .pass 80, .submit .flushed]]

end State

end Yggterm.EchoSubmit
