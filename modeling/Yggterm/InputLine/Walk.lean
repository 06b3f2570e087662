import Mathlib.Data.List.Basic
import Mathlib.Data.UInt

/-!
# The input-line walker

`input_line_after` (`yggterm-core/src/lib.rs`) walks the bytes a client forwards
to a PTY and reconstructs the line that stands in the composer.  The escape
machine is separated from the editing of the line: the machine never looks at the
line, and the line is edited only while the machine is in its normal state.
-/

namespace Yggterm.InputLine

universe u v

/-- The escape states.  `csi_params`, `csi_len` and `csi_overflow` are reset when a
CSI sequence opens and read only inside it, so they live in that state. -/
inductive EscState where
  | normal
  | escape
  | csi (params : List UInt8) (overflow : Bool)
  | ss3
  | osc
  deriving DecidableEq

/-- Where the walk stands between two bytes, apart from the line.  The paste depth
is a `u32` with saturating arithmetic. -/
structure Grammar where
  state : EscState
  pasteDepth : Nat
  deriving DecidableEq

namespace Grammar

/-- Where every call of the walker starts. -/
def ground : Grammar where
  state := .normal
  pasteDepth := 0

/-- `200`, the parameter text of the bracketed-paste opener. -/
def pasteStartParams : List UInt8 := [0x32, 0x30, 0x30]

/-- `201`, the parameter text of the bracketed-paste closer. -/
def pasteEndParams : List UInt8 := [0x32, 0x30, 0x31]

/-- What `params ~` does to the paste depth. -/
def markerDepth (params : List UInt8) (depth : Nat) : Nat :=
  if params = pasteStartParams then min (depth + 1) (2 ^ 32 - 1)
  else if params = pasteEndParams then depth - 1
  else depth

/-- The bytes that end a CSI sequence. -/
def isCsiFinal (byte : UInt8) : Prop := 0x40 ≤ byte ∧ byte ≤ 0x7e

instance (byte : UInt8) : Decidable (isCsiFinal byte) :=
  inferInstanceAs (Decidable (0x40 ≤ byte ∧ byte ≤ 0x7e))

def step (grammar : Grammar) (byte : UInt8) : Grammar :=
  match grammar.state with
  | .normal => if byte = 0x1b then { grammar with state := .escape } else grammar
  | .escape =>
      if byte = 0x5b then { grammar with state := .csi [] false }
      else if byte = 0x4f then { grammar with state := .ss3 }
      else if byte = 0x5d then { grammar with state := .osc }
      else { grammar with state := .normal }
  | .csi params overflow =>
      if isCsiFinal byte then
        { state := .normal
          pasteDepth :=
            if byte = 0x7e ∧ overflow = false then markerDepth params grammar.pasteDepth
            else grammar.pasteDepth }
      else if params.length < 4 then
        { grammar with state := .csi (params ++ [byte]) overflow }
      else
        { grammar with state := .csi params true }
  | .ss3 => { grammar with state := .normal }
  | .osc =>
      if byte = 0x07 then { grammar with state := .normal }
      else if byte = 0x1b then { grammar with state := .escape }
      else grammar

end Grammar

/-- What stands on the line, and whether it amounts to an unsent draft.  The cells
of the line are bytes in the source; the walk is the same over any cells that
carry a byte, which lets a proof carry more than the source does. -/
structure Composer (Cell : Type u) where
  line : List Cell
  draft : Bool
  deriving DecidableEq

section Walk

variable {Cell : Type u} (write : UInt8 → Cell) (read : Cell → UInt8)

/-- Pop cells up to and including the first that does not carry a UTF-8
continuation byte. -/
def popScalar (line : List Cell) : List Cell :=
  ((line.reverse.dropWhile fun cell => read cell &&& 0xc0 = 0x80).tail).reverse

/-- A byte that reaches the line: the arms of the normal state but for `ESC`. -/
def Composer.type (composer : Composer Cell) (pasteDepth : Nat) (byte : UInt8) :
    Composer Cell :=
  if byte = 0x0d ∨ byte = 0x0a then
    if pasteDepth = 0 then { line := [], draft := false }
    else { composer with line := composer.line ++ [write byte] }
  else if byte = 0x03 ∨ byte = 0x15 then
    if pasteDepth = 0 then { line := [], draft := false }
    else composer
  else if byte = 0x08 ∨ byte = 0x7f then
    { composer with line := popScalar read composer.line }
  else if 0x20 ≤ byte ∧ byte ≠ 0x20 ∧ byte ≠ 0x09 then
    { line := composer.line ++ [write byte], draft := true }
  else if byte = 0x20 ∨ byte = 0x09 then
    { composer with line := composer.line ++ [write byte] }
  else composer

/-- One turn of the walker's loop. -/
def walkByte (walk : Grammar × Composer Cell) (byte : UInt8) : Grammar × Composer Cell :=
  (walk.1.step byte,
    if walk.1.state = .normal ∧ byte ≠ 0x1b then
      walk.2.type write read walk.1.pasteDepth byte
    else walk.2)

def walkBytes (walk : Grammar × Composer Cell) (data : List UInt8) :
    Grammar × Composer Cell :=
  data.foldl (walkByte write read) walk

/-- What a call of the walker makes of the line it is given. -/
def composerAfter (composer : Composer Cell) (data : List UInt8) : Composer Cell :=
  (walkBytes write read (Grammar.ground, composer) data).2

end Walk

/-- `InputLineReconstruction`: the line as bytes. -/
abbrev InputLineReconstruction := Composer UInt8

def inputLineAfter (prev : Bool) (prevLine data : List UInt8) : InputLineReconstruction :=
  composerAfter id id { line := prevLine, draft := prev } data

/-! ## The walk in general -/

section Walk

variable {Cell : Type u} {Other : Type v} {write : UInt8 → Cell} {read : Cell → UInt8}

@[simp]
theorem walkBytes_nil (walk : Grammar × Composer Cell) :
    walkBytes write read walk [] = walk := rfl

@[simp]
theorem walkBytes_cons (walk : Grammar × Composer Cell) (byte : UInt8) (data : List UInt8) :
    walkBytes write read walk (byte :: data) =
      walkBytes write read (walkByte write read walk byte) data := rfl

theorem walkBytes_append (walk : Grammar × Composer Cell) (first second : List UInt8) :
    walkBytes write read walk (first ++ second) =
      walkBytes write read (walkBytes write read walk first) second :=
  List.foldl_append

/-- The escape machine runs on the bytes alone. -/
theorem walkBytes_fst (walk : Grammar × Composer Cell) (data : List UInt8) :
    (walkBytes write read walk data).1 = data.foldl Grammar.step walk.1 := by
  induction data generalizing walk with
  | nil => rfl
  | cons byte rest inductionHypothesis =>
      rw [walkBytes_cons, inductionHypothesis, List.foldl_cons]
      rfl

/-- Walking on: what is left of the first bytes is the machine's state and the
line. -/
theorem composerAfter_append_eq (composer : Composer Cell) (first second : List UInt8) :
    composerAfter write read composer (first ++ second) =
      (walkBytes write read (first.foldl Grammar.step Grammar.ground,
        composerAfter write read composer first) second).2 := by
  have firstCall : walkBytes write read (Grammar.ground, composer) first =
      (first.foldl Grammar.step Grammar.ground, composerAfter write read composer first) :=
    Prod.ext (walkBytes_fst _ _) rfl
  rw [composerAfter, walkBytes_append, firstCall]

/-- A walk that starts where another call would start is a call of its own. -/
theorem composerAfter_append (composer : Composer Cell) (first second : List UInt8)
    (settles : first.foldl Grammar.step Grammar.ground = Grammar.ground) :
    composerAfter write read composer (first ++ second) =
      composerAfter write read (composerAfter write read composer first) second := by
  rw [composerAfter_append_eq, settles]
  rfl

def Composer.map (change : Cell → Other) (composer : Composer Cell) : Composer Other where
  line := composer.line.map change
  draft := composer.draft

theorem popScalar_map (change : Cell → Other) (readOther : Other → UInt8)
    (reads : ∀ cell, readOther (change cell) = read cell) (line : List Cell) :
    popScalar readOther (line.map change) = (popScalar read line).map change := by
  have sameTest : ((fun cell => decide (readOther cell &&& 0xc0 = 0x80)) ∘ change) =
      fun cell => decide (read cell &&& 0xc0 = 0x80) := by
    funext cell
    simp [reads]
  rw [popScalar, popScalar, ← List.map_reverse, List.dropWhile_map, sameTest, ← List.map_tail,
    List.map_reverse]

theorem Composer.type_map (change : Cell → Other) (readOther : Other → UInt8)
    (reads : ∀ cell, readOther (change cell) = read cell) (composer : Composer Cell)
    (pasteDepth : Nat) (byte : UInt8) :
    (composer.map change).type (change ∘ write) readOther pasteDepth byte =
      (composer.type write read pasteDepth byte).map change := by
  unfold Composer.type
  repeat' split
  all_goals simp_all [Composer.map, popScalar_map change readOther reads]

/-- Walking commutes with relabelling the cells, so the bytes of the line do not
depend on what else its cells carry. -/
theorem composerAfter_map (change : Cell → Other) (readOther : Other → UInt8)
    (reads : ∀ cell, readOther (change cell) = read cell) (composer : Composer Cell)
    (data : List UInt8) :
    composerAfter (change ∘ write) readOther (composer.map change) data =
      (composerAfter write read composer data).map change := by
  unfold composerAfter
  generalize Grammar.ground = grammar
  induction data generalizing grammar composer with
  | nil => rfl
  | cons byte rest inductionHypothesis =>
      rw [walkBytes_cons, walkBytes_cons]
      have oneByte : walkByte (change ∘ write) readOther (grammar, composer.map change) byte =
          ((walkByte write read (grammar, composer) byte).1,
            (walkByte write read (grammar, composer) byte).2.map change) := by
        unfold walkByte
        by_cases typed : grammar.state = .normal ∧ byte ≠ 0x1b
        · simp only [if_pos typed, Composer.type_map change readOther reads]
        · simp only [if_neg typed]
      rw [oneByte]
      exact inductionHypothesis _ _

/-- The line never depends on the draft flag. -/
theorem composerAfter_line_draft (line : List Cell) (first second : Bool)
    (data : List UInt8) :
    (composerAfter write read { line, draft := first } data).line =
      (composerAfter write read { line, draft := second } data).line := by
  unfold composerAfter
  generalize Grammar.ground = grammar
  induction data generalizing grammar line first second with
  | nil => rfl
  | cons byte rest inductionHypothesis =>
      have sameLine : (walkByte write read (grammar, { line, draft := first }) byte).2.line =
          (walkByte write read (grammar, { line, draft := second }) byte).2.line := by
        unfold walkByte Composer.type
        repeat' split
        all_goals rfl
      rw [walkBytes_cons, walkBytes_cons]
      have stepped := inductionHypothesis
        (walkByte write read (grammar, { line, draft := first }) byte).2.line
        (walkByte write read (grammar, { line, draft := first }) byte).2.draft
        (walkByte write read (grammar, { line, draft := second }) byte).2.draft
        (grammar.step byte)
      refine stepped.trans ?_
      rw [sameLine]
      rfl

end Walk

/-! ## The input side of a PTY runtime

The part of `PtySessionRuntime` (`yggterm-server/src/terminal.rs`) that client
writes go through: the reconstructed line with its two marks, and the writer
queue.  How the queue and the writer thread answer is the environment's choice. -/

/-- How `enqueue_terminal_write` fares: the request is flushed, it is sent but not
acknowledged, or it is not taken at all. -/
inductive EnqueueOutcome where
  | flushed
  | flushFailed (error : String)
  | flushTimeout
  | writerExited
  | queueFull
  | writerGone
  deriving DecidableEq

namespace EnqueueOutcome

/-- The request reached the queue. -/
def sent : EnqueueOutcome → Bool
  | queueFull | writerGone => false
  | _ => true

def result (key : String) : EnqueueOutcome → Except String Unit
  | flushed => .ok ()
  | flushFailed error => .error s!"terminal writer failed for {key}: {error}"
  | flushTimeout => .error s!"terminal writer did not flush input for {key} within 1500ms"
  | writerExited => .error s!"terminal writer exited before flushing input for {key}"
  | queueFull => .error
      s!"terminal input queue is full for {key}; child process is not accepting input"
  | writerGone => .error s!"terminal writer is no longer available for {key}"

end EnqueueOutcome

/-- The answer of an enqueue beside the bytes it put on the writer queue. -/
def writeDaemonOriginated (key : String) (data : List UInt8) (outcome : EnqueueOutcome) :
    Except String Unit × List UInt8 :=
  if data = [] then (.ok (), [])
  else (outcome.result key, if outcome.sent then data else [])

/-- The fields of a runtime that the walk maintains. -/
structure Runtime where
  pendingInputDraft : Bool
  pendingInputLine : List UInt8
  pendingInputLineHuman : Bool
  clientInputBytes : Nat
  deriving DecidableEq

namespace Runtime

/-- A runtime nobody has written to. -/
def fresh : Runtime where
  pendingInputDraft := false
  pendingInputLine := []
  pendingInputLineHuman := false
  clientInputBytes := 0

/-- The first half of `write_with_provenance`: the line under its lock, then the
marks.  `client_input_bytes` is a `u64` that wraps. -/
def recordWrite (runtime : Runtime) (data : List UInt8) (programmatic : Bool) : Runtime :=
  let next := inputLineAfter runtime.pendingInputDraft runtime.pendingInputLine data
  { pendingInputDraft := next.draft
    pendingInputLine := next.line
    pendingInputLineHuman :=
      if next.line = [] then false
      else if programmatic = false ∧ runtime.pendingInputLine.length < next.line.length then true
      else runtime.pendingInputLineHuman
    clientInputBytes := (runtime.clientInputBytes + data.length) % 2 ^ 64 }

/-- The answer, the bytes put on the queue, and the runtime afterwards. -/
def writeWithProvenance (runtime : Runtime) (key : String) (data : List UInt8)
    (programmatic : Bool) (outcome : EnqueueOutcome) :
    (Except String Unit × List UInt8) × Runtime :=
  if data = [] then ((.ok (), []), runtime)
  else (writeDaemonOriginated key data outcome, runtime.recordWrite data programmatic)

def clearStalePendingInput (runtime : Runtime) : Runtime :=
  { runtime with
    pendingInputDraft := false
    pendingInputLineHuman := false
    pendingInputLine := [] }

def pendingLineIsProgrammaticOnly (runtime : Runtime) : Bool :=
  !runtime.pendingInputLine.isEmpty && !runtime.pendingInputLineHuman

/-- `SubmitIffLineVerdict`, for a runtime this daemon holds. -/
inductive SubmitVerdict where
  | submitted
  | lineMismatch (lineLen expectedLen : Nat)
  | writeFailed (error : String)
  deriving DecidableEq

/-- Press Enter if the line is exactly `expected`.  The comparison, the enqueue and
the clearing happen under the line lock. -/
def submitIfLineEquals (runtime : Runtime) (key : String) (expected : List UInt8)
    (outcome : EnqueueOutcome) : (SubmitVerdict × List UInt8) × Runtime :=
  if runtime.pendingInputLine ≠ expected then
    ((.lineMismatch runtime.pendingInputLine.length expected.length, []), runtime)
  else
    match writeDaemonOriginated key [0x0d] outcome with
    | (.ok (), queued) =>
        ((.submitted, queued),
          { runtime with pendingInputLine := [], pendingInputDraft := false })
    | (.error error, queued) => ((.writeFailed error, queued), runtime)

/-- The verdicts in full: a mismatch and a failed Enter leave the runtime alone. -/
theorem submitIfLineEquals_cases (runtime : Runtime) (key : String) (expected : List UInt8)
    (outcome : EnqueueOutcome) :
    (runtime.pendingInputLine = expected ∧ outcome = .flushed ∧
      runtime.submitIfLineEquals key expected outcome = ((.submitted, [0x0d]),
        { runtime with pendingInputLine := [], pendingInputDraft := false })) ∨
    (¬ (runtime.pendingInputLine = expected ∧ outcome = .flushed) ∧
      (runtime.submitIfLineEquals key expected outcome).1.1 ≠ .submitted ∧
      (runtime.submitIfLineEquals key expected outcome).1.2 =
        (if runtime.pendingInputLine = expected ∧ outcome.sent = true then [0x0d] else []) ∧
      (runtime.submitIfLineEquals key expected outcome).2 = runtime) := by
  by_cases same : runtime.pendingInputLine = expected
  · cases outcome <;>
      simp [submitIfLineEquals, writeDaemonOriginated, EnqueueOutcome.result,
        EnqueueOutcome.sent, same]
  · simp [submitIfLineEquals, same]

end Runtime

end Yggterm.InputLine
