import Mathlib.Data.List.TakeWhile
import Mathlib.Logic.Function.Iterate
import Yggterm.InputLine.Walk

/-!
# Writes that the queue refuses

`write_with_provenance` records a payload on the line before it knows whether the queue takes it.
What a payload does to a line is told by a footprint, which does not depend on the line.
-/

namespace Yggterm.InputLine

/-! ## Erasing behind what is typed -/

def isContinuation (byte : UInt8) : Bool := byte &&& 0xc0 = 0x80

theorem popScalar_append_of_continuation {typed : List UInt8}
    (continues : typed.all isContinuation = true) (line : List UInt8) :
    popScalar id (line ++ typed) = popScalar id line := by
  have drops : ∀ byte ∈ typed.reverse, isContinuation byte = true := by
    intro byte member
    exact List.all_eq_true.mp continues byte (List.mem_reverse.mp member)
  rw [popScalar, popScalar, List.reverse_append]
  change ((List.dropWhile isContinuation _).tail).reverse = _
  rw [List.dropWhile_append_of_pos drops]
  rfl

theorem popScalar_append_of_scalar {typed : List UInt8}
    (begins : typed.all isContinuation = false) (line : List UInt8) :
    popScalar id (line ++ typed) = line ++ popScalar id typed := by
  have stays : typed.reverse.dropWhile isContinuation ≠ [] := by
    intro nothing
    rw [List.dropWhile_eq_nil_iff] at nothing
    have all : typed.all isContinuation = true :=
      List.all_eq_true.mpr fun byte member => nothing byte (List.mem_reverse.mpr member)
    rw [begins] at all
    cases all
  rw [popScalar, popScalar, List.reverse_append]
  change ((List.dropWhile isContinuation _).tail).reverse =
    line ++ ((List.dropWhile isContinuation _).tail).reverse
  rw [List.dropWhile_append, if_neg (by simpa using stays), List.tail_append_of_ne_nil stays,
    List.reverse_append, List.reverse_reverse]

/-! ## Footprints -/

/-- What a payload does to a line: whether it clears it, how many characters of it it erases, what
it leaves behind them, and whether it has typed a visible character since. -/
structure Footprint where
  cleared : Bool
  erased : Nat
  typed : List UInt8
  visible : Bool
  deriving DecidableEq

namespace Footprint

def none : Footprint where
  cleared := false
  erased := 0
  typed := []
  visible := false

def clear : Footprint where
  cleared := true
  erased := 0
  typed := []
  visible := false

def erase (footprint : Footprint) : Footprint :=
  if footprint.typed.all isContinuation then
    { footprint with erased := footprint.erased + 1, typed := [] }
  else { footprint with typed := popScalar id footprint.typed }

/-- A byte that reaches the line. -/
def type (footprint : Footprint) (pasteDepth : Nat) (byte : UInt8) : Footprint :=
  if byte = 0x0d ∨ byte = 0x0a then
    if pasteDepth = 0 then clear else { footprint with typed := footprint.typed ++ [byte] }
  else if byte = 0x03 ∨ byte = 0x15 then
    if pasteDepth = 0 then clear else footprint
  else if byte = 0x08 ∨ byte = 0x7f then footprint.erase
  else if 0x20 ≤ byte ∧ byte ≠ 0x20 ∧ byte ≠ 0x09 then
    { footprint with typed := footprint.typed ++ [byte], visible := true }
  else if byte = 0x20 ∨ byte = 0x09 then { footprint with typed := footprint.typed ++ [byte] }
  else footprint

/-- The part of the old line that stays. -/
def kept (footprint : Footprint) (line : List UInt8) : List UInt8 :=
  if footprint.cleared then [] else (popScalar id)^[footprint.erased] line

def apply (footprint : Footprint) (composer : Composer UInt8) : Composer UInt8 where
  line := footprint.kept composer.line ++ footprint.typed
  draft := (!footprint.cleared && composer.draft) || footprint.visible

theorem apply_none (composer : Composer UInt8) : none.apply composer = composer := by
  cases composer
  simp [apply, kept, none]

theorem kept_erase (footprint : Footprint) (line : List UInt8) :
    footprint.erase.kept line ++ footprint.erase.typed =
      popScalar id (footprint.kept line ++ footprint.typed) := by
  rw [erase]
  split
  · next continues =>
      rw [popScalar_append_of_continuation continues, kept, kept]
      cases footprint.cleared with
      | true => rfl
      | false => simp [Function.iterate_succ_apply']
  · next begins =>
      rw [popScalar_append_of_scalar (by simpa using begins)]
      rfl

theorem apply_type (footprint : Footprint) (composer : Composer UInt8) (pasteDepth : Nat)
    (byte : UInt8) :
    (footprint.type pasteDepth byte).apply composer =
      (footprint.apply composer).type id id pasteDepth byte := by
  unfold type Composer.type
  split_ifs
  · rfl
  · simp [apply, kept]
  · rfl
  · rfl
  · have line := footprint.kept_erase composer.line
    have flags : footprint.erase.cleared = footprint.cleared ∧
        footprint.erase.visible = footprint.visible := by
      unfold erase
      split <;> exact ⟨rfl, rfl⟩
    rw [apply, line, flags.1, flags.2]
    rfl
  · simp [apply, kept]
  · simp [apply, kept]
  · rfl

end Footprint

/-- One byte of a payload. -/
def footprintByte (walk : Grammar × Footprint) (byte : UInt8) : Grammar × Footprint :=
  (walk.1.step byte,
    if walk.1.state = .normal ∧ byte ≠ 0x1b then walk.2.type walk.1.pasteDepth byte else walk.2)

/-- What a payload does to any line. -/
def footprint (data : List UInt8) : Footprint :=
  (data.foldl footprintByte (Grammar.ground, Footprint.none)).2

/-- The walk over a line is the footprint of the payload, applied to the line. -/
theorem composerAfter_eq_apply (composer : Composer UInt8) (data : List UInt8) :
    composerAfter id id composer data = (footprint data).apply composer := by
  have walked : ∀ (grammar : Grammar) (reached : Footprint),
      (walkBytes id id (grammar, reached.apply composer) data).2 =
        (data.foldl footprintByte (grammar, reached)).2.apply composer := by
    induction data with
    | nil => exact fun _ _ => rfl
    | cons byte rest inductionHypothesis =>
        intro grammar reached
        rw [walkBytes_cons, List.foldl_cons, walkByte, footprintByte]
        by_cases reaches : grammar.state = .normal ∧ byte ≠ 0x1b
        · simp only [if_pos reaches, ← Footprint.apply_type]
          exact inductionHypothesis _ _
        · simp only [if_neg reaches]
          exact inductionHypothesis _ _
  have whole := walked Grammar.ground Footprint.none
  rwa [Footprint.apply_none] at whole

namespace Runtime

/-- A payload that leaves the runtime as it stands: it types back exactly what it takes off the
line, and a mark on an empty line, which every payload takes off, is not set. -/
structure Restores (runtime : Runtime) (payload : Footprint) : Prop where
  line : payload.kept runtime.pendingInputLine ++ payload.typed = runtime.pendingInputLine
  visible : payload.visible = true → runtime.pendingInputDraft = true
  cleared : payload.cleared = true → runtime.pendingInputDraft = true → payload.visible = true
  human : runtime.pendingInputLine = [] → runtime.pendingInputLineHuman = false

/-- What a refused write should leave alone: the line and its marks, and with them the verdict of
every later submit. -/
structure SameInput (before after : Runtime) : Prop where
  line : after.pendingInputLine = before.pendingInputLine
  draft : after.pendingInputDraft = before.pendingInputDraft
  human : after.pendingInputLineHuman = before.pendingInputLineHuman
  submits : ∀ (key : String) (expected : List UInt8) (outcome : EnqueueOutcome),
    (after.submitIfLineEquals key expected outcome).1 =
      (before.submitIfLineEquals key expected outcome).1

theorem submitIfLineEquals_congr {before after : Runtime}
    (line : after.pendingInputLine = before.pendingInputLine) (key : String)
    (expected : List UInt8) (outcome : EnqueueOutcome) :
    (after.submitIfLineEquals key expected outcome).1 =
      (before.submitIfLineEquals key expected outcome).1 := by
  unfold submitIfLineEquals
  rw [line]
  split
  · rfl
  · split <;> rfl

theorem sameInput_recordWrite_iff (runtime : Runtime) (data : List UInt8) (programmatic : Bool) :
    runtime.SameInput (runtime.recordWrite data programmatic) ↔
      runtime.Restores (footprint data) := by
  have next : inputLineAfter runtime.pendingInputDraft runtime.pendingInputLine data =
      (footprint data).apply ⟨runtime.pendingInputLine, runtime.pendingInputDraft⟩ :=
    composerAfter_eq_apply _ data
  constructor
  · intro same
    have line := same.line
    have draft := same.draft
    have human := same.human
    rw [recordWrite] at line draft human
    dsimp only at line draft human
    rw [line] at human
    rw [next] at line draft
    refine ⟨line, ?_, ?_, ?_⟩
    · intro visible
      rw [← draft, Footprint.apply, visible, Bool.or_true]
    · intro cleared isDraft
      simpa [Footprint.apply, cleared, isDraft] using draft
    · intro empty
      rw [if_pos empty] at human
      exact human.symm
  · intro restores
    have line : (runtime.recordWrite data programmatic).pendingInputLine =
        runtime.pendingInputLine := by
      rw [recordWrite, next]
      exact restores.line
    refine ⟨line, ?_, ?_, submitIfLineEquals_congr line⟩
    · rw [recordWrite, next]
      change ((!(footprint data).cleared && runtime.pendingInputDraft) ||
        (footprint data).visible) = _
      have merges : ∀ draft clears shows : Bool, (shows = true → draft = true) →
          (clears = true → draft = true → shows = true) → (!clears && draft || shows) = draft := by
        decide
      exact merges _ _ _ restores.visible restores.cleared
    · rw [recordWrite] at line ⊢
      dsimp only at line ⊢
      rw [line]
      split
      · next empty => exact (restores.human empty).symm
      · rw [if_neg fun grows => lt_irrefl _ grows.2]

/-- A write that the queue does not take leaves the reconstruction alone exactly when its payload
restores it. -/
theorem refused_write_iff (runtime : Runtime) (data : List UInt8) (programmatic : Bool) :
    (∀ (key : String) (outcome : EnqueueOutcome), outcome.sent = false →
      (∃ error, (runtime.writeWithProvenance key data programmatic outcome).1.1 = .error error) →
        runtime.SameInput (runtime.writeWithProvenance key data programmatic outcome).2) ↔
      data = [] ∨ runtime.Restores (footprint data) := by
  by_cases empty : data = []
  · simp [empty, writeWithProvenance]
  · rw [← sameInput_recordWrite_iff runtime data programmatic]
    simp only [empty, writeWithProvenance, if_false, false_or]
    constructor
    · intro leaves
      apply leaves "" .queueFull rfl
      simp [writeDaemonOriginated, empty, EnqueueOutcome.result]
    · exact fun same _ _ _ _ => same

/-- Text that a full queue did not take is submitted. -/
theorem refused_write_submits : ¬ ∀ (runtime : Runtime) (data : List UInt8) (programmatic : Bool)
    (key : String) (outcome : EnqueueOutcome), outcome.sent = false →
      (∃ error, (runtime.writeWithProvenance key data programmatic outcome).1.1 = .error error) →
        runtime.SameInput (runtime.writeWithProvenance key data programmatic outcome).2 := by
  intro claimed
  have same := claimed fresh [0x6c, 0x73] false "" .queueFull rfl ⟨_, rfl⟩
  have verdict := same.submits "" [0x6c, 0x73] .flushed
  revert verdict
  decide

end Runtime

end Yggterm.InputLine
