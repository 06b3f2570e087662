import Yggterm.InputLine.Cuts
import Yggterm.InputLine.Walk
import Yggterm.Library.Runs

/-!
# Submitting by comparison, between the halves of writes

`write_with_provenance` records a payload on the line under the line lock and
puts its bytes on the writer queue after letting the lock go;
`submit_if_line_equals` compares, enqueues the Enter and clears the line under the
lock.  So the line may be ahead of the queue when a submit looks at it.
-/

namespace Yggterm.InputLine

/-- The runtime, the writes between their two halves in the order they took the
lock, and what went to the writer queue.  Every Enter a submit reports is kept with
the line it was for and the bytes enqueued since the Enter before it. -/
structure WriterQueue where
  runtime : Runtime
  inFlight : List (List UInt8)
  enqueued : List UInt8
  submissions : List (List UInt8 × List UInt8)
  deriving DecidableEq

/-- One move of one thread.  A write that is finished is named by its place among
those in flight. -/
inductive QueueAction where
  | beginWrite (data : List UInt8) (programmatic : Bool)
  | finishWrite (index : Nat) (outcome : EnqueueOutcome)
  | submit (expected : List UInt8) (outcome : EnqueueOutcome)
  deriving DecidableEq

namespace WriterQueue

def fresh : WriterQueue where
  runtime := Runtime.fresh
  inFlight := []
  enqueued := []
  submissions := []

def step (key : String) (queue : WriterQueue) : QueueAction → WriterQueue
  | .beginWrite data programmatic =>
      if data = [] then queue
      else
        { queue with
          runtime := queue.runtime.recordWrite data programmatic
          inFlight := queue.inFlight ++ [data] }
  | .finishWrite index outcome =>
      match queue.inFlight[index]? with
      | none => queue
      | some data =>
          { queue with
            inFlight := queue.inFlight.eraseIdx index
            enqueued := queue.enqueued ++ (writeDaemonOriginated key data outcome).2 }
  | .submit expected outcome =>
      let answer := queue.runtime.submitIfLineEquals key expected outcome
      if answer.1.1 = .submitted then
        { queue with
          runtime := answer.2
          enqueued := []
          submissions := queue.submissions ++ [(expected, queue.enqueued)] }
      else
        { queue with
          runtime := answer.2
          enqueued := queue.enqueued ++ answer.1.2 }

/-- The two halves with nothing between them are the write. -/
theorem run_beginWrite_finishWrite (key : String) (queue : WriterQueue) (data : List UInt8)
    (programmatic : Bool) (outcome : EnqueueOutcome) (nonempty : data ≠ []) :
    Runs.run (step key) queue
        [.beginWrite data programmatic, .finishWrite queue.inFlight.length outcome] =
      { queue with
        runtime := (queue.runtime.writeWithProvenance key data programmatic outcome).2
        enqueued := queue.enqueued ++
          (queue.runtime.writeWithProvenance key data programmatic outcome).1.2 } := by
  simp [step, nonempty, Runtime.writeWithProvenance, List.eraseIdx_append_of_length_le]

/-- The bytes before every reported Enter stand on the line as what the caller
asked for. -/
def SubmitsExactly (queue : WriterQueue) : Prop :=
  ∀ submission ∈ queue.submissions,
    (inputLineAfter false [] submission.2).line = submission.1

/-- What was recorded on the line since the last reported Enter, queued or not. -/
def recorded (queue : WriterQueue) : List UInt8 :=
  queue.enqueued ++ queue.inFlight.flatten

/-- A write begins where the bytes before it may be cut, the halves of writes are
finished in the order they were begun and reach the queue, and an Enter is sent
with no write in flight and is acknowledged. -/
def Orderly (queue : WriterQueue) : QueueAction → Prop
  | .beginWrite _ _ => Settled queue.recorded
  | .finishWrite index outcome =>
      index < queue.inFlight.length → index = 0 ∧ outcome.sent = true
  | .submit expected outcome =>
      queue.runtime.pendingInputLine = expected → outcome.sent = true →
        queue.inFlight = [] ∧ outcome = .flushed

/-- The line is the walk over everything recorded. -/
structure InStep (queue : WriterQueue) : Prop where
  line_eq : queue.runtime.pendingInputLine = (inputLineAfter false [] queue.recorded).line
  submitsExactly : queue.SubmitsExactly

theorem recordWrite_line (runtime : Runtime) (data bytes : List UInt8) (programmatic : Bool)
    (settled : Settled bytes)
    (line : runtime.pendingInputLine = (inputLineAfter false [] bytes).line) :
    (runtime.recordWrite data programmatic).pendingInputLine =
      (inputLineAfter false [] (bytes ++ data)).line := by
  rw [inputLineAfter, composerAfter_append _ _ _ ((settled_iff bytes).mp settled)]
  change (inputLineAfter runtime.pendingInputDraft runtime.pendingInputLine data).line = _
  rw [line]
  exact composerAfter_line_draft _ _ _ data

theorem step_inStep (key : String) (queue : WriterQueue) (action : QueueAction)
    (inStep : queue.InStep) (orderly : queue.Orderly action) :
    (queue.step key action).InStep := by
  cases action with
  | beginWrite data programmatic =>
      by_cases empty : data = []
      · simpa only [step, if_pos empty] using inStep
      · simp only [step, if_neg empty]
        refine ⟨?_, inStep.submitsExactly⟩
        rw [recordWrite_line _ data queue.recorded programmatic orderly inStep.line_eq]
        simp [recorded]
  | finishWrite index outcome =>
      cases inFlight : queue.inFlight with
      | nil => simpa [step, inFlight] using inStep
      | cons data rest =>
          by_cases within : index < queue.inFlight.length
          · obtain ⟨rfl, sent⟩ := orderly within
            simp only [step, inFlight, List.getElem?_cons_zero]
            refine ⟨?_, inStep.submitsExactly⟩
            have queued : (writeDaemonOriginated key data outcome).2 = data := by
              by_cases empty : data = []
              · simp [writeDaemonOriginated, empty]
              · simp [writeDaemonOriginated, empty, sent]
            rw [queued]
            simpa [recorded, inFlight] using inStep.line_eq
          · simpa [step, List.getElem?_eq_none (Nat.le_of_not_lt within)] using inStep
  | submit expected outcome =>
      rcases queue.runtime.submitIfLineEquals_cases key expected outcome with
        ⟨same, flushed, submitted⟩ | ⟨notSubmitted, refused, sentBytes, unchanged⟩
      · obtain ⟨nothingInFlight, _⟩ := orderly same (by rw [flushed]; rfl)
        have standing := inStep.line_eq
        simp only [step, submitted, if_pos]
        simp only [recorded, nothingInFlight, List.flatten_nil, List.append_nil] at standing
        refine ⟨?_, ?_⟩
        · change [] = (inputLineAfter false [] ([] ++ queue.inFlight.flatten)).line
          rw [nothingInFlight]
          rfl
        · refine List.forall_mem_append.mpr ⟨inStep.submitsExactly, ?_⟩
          simp [← standing, same]
      · -- the condition leaves no Enter that is sent and not reported
        have noEnter : (queue.runtime.submitIfLineEquals key expected outcome).1.2 = [] := by
          rw [sentBytes, if_neg]
          rintro ⟨same, sent⟩
          exact notSubmitted ⟨same, (orderly same sent).2⟩
        simp only [step, if_neg refused, unchanged, noEnter, List.append_nil]
        exact inStep

/-- In every interleaving whose moves are orderly, every Enter that is reported as
submitted was for the line its bytes make. -/
theorem always_submitsExactly (key : String) (actions : List QueueAction)
    (orderly : Runs.Guarded (step key) Orderly fresh actions) :
    Runs.Always (step key) SubmitsExactly fresh actions := by
  have initially : fresh.InStep := ⟨rfl, fun submission member => by cases member⟩
  exact Runs.always_of_guarded (step_inStep key) (fun queue inStep => inStep.submitsExactly)
    initially orderly

/-- A write is typed and flushed, then submitted. -/
theorem always_submitsExactly_of_typed_line :
    let actions : List QueueAction :=
      [.beginWrite [0x6c, 0x73] true, .finishWrite 0 .flushed, .submit [0x6c, 0x73] .flushed]
    (Runs.run (step "k") fresh actions).submissions = [([0x6c, 0x73], [0x6c, 0x73])] ∧
      Runs.Always (step "k") SubmitsExactly fresh actions := by
  refine ⟨by decide, always_submitsExactly "k" _ ?_⟩
  refine ⟨?_, ?_, ?_, trivial⟩
  · change Settled []
    decide
  · exact fun _ => ⟨rfl, rfl⟩
  · exact fun _ _ => ⟨rfl, rfl⟩

/-- A submit between the halves of a write: the Enter overtakes the line. -/
theorem submit_overtakes_write :
    ¬ ∀ (key : String) (actions : List QueueAction),
      Runs.Always (step key) SubmitsExactly fresh actions := by
  intro always
  have run := always "" [.beginWrite [0x6c, 0x73] true, .submit [0x6c, 0x73] .flushed]
  have exactly := run.2.2 ([0x6c, 0x73], []) (by decide)
  revert exactly
  decide

end WriterQueue

end Yggterm.InputLine
