import Yggterm.InputLine.Walk
import Yggterm.Library.Runs

/-!
# Whose bytes stand on the line

The runtime keeps one bit about provenance.  Beside it we carry what the bit is
meant to say: every byte of the line with the kind of write that put it there.
The walk over marked bytes is the walk of the source, so the marks are faithful.
-/

namespace Yggterm.InputLine

universe u

/-! ## What one payload leaves of the line -/

section Footprint

variable {Cell : Type u} {write : UInt8 → Cell} {read : Cell → UInt8}

theorem popScalar_isPrefix (line : List Cell) : popScalar read line <+: line := by
  rw [popScalar, ← List.reverse_suffix, List.reverse_reverse]
  exact (List.tail_suffix _).trans (List.dropWhile_suffix _)

/-- The line is a beginning of `old` followed by bytes typed since. -/
def Stands (write : UInt8 → Cell) (old line : List Cell) : Prop :=
  ∃ (kept : List Cell) (typed : List UInt8), line = kept ++ typed.map write ∧ kept <+: old

theorem Stands.append {old line : List Cell} (stands : Stands write old line) (byte : UInt8) :
    Stands write old (line ++ [write byte]) := by
  obtain ⟨kept, typed, rfl, isPrefix⟩ := stands
  exact ⟨kept, typed ++ [byte], by simp, isPrefix⟩

theorem Stands.of_isPrefix {old line shorter : List Cell} (stands : Stands write old line)
    (cut : shorter <+: line) : Stands write old shorter := by
  obtain ⟨kept, typed, rfl, isPrefix⟩ := stands
  rcases List.prefix_or_prefix_of_prefix cut (List.prefix_append kept _) with within | ⟨rest, rfl⟩
  · exact ⟨shorter, [], by simp, within.trans isPrefix⟩
  · have restPrefix := (List.prefix_append_right_inj kept).mp cut
    refine ⟨kept, typed.take rest.length, ?_, isPrefix⟩
    rw [List.map_take, ← List.prefix_iff_eq_take.mp restPrefix]

theorem Composer.type_stands {old : List Cell} (composer : Composer Cell)
    (stands : Stands write old composer.line) (pasteDepth : Nat) (byte : UInt8) :
    Stands write old (composer.type write read pasteDepth byte).line := by
  unfold Composer.type
  repeat' split
  all_goals first
    | exact stands
    | exact stands.append byte
    | exact stands.of_isPrefix (popScalar_isPrefix _)
    | exact stands.of_isPrefix List.nil_prefix

/-- A payload takes bytes from the end of the line and puts its own after what is
left. -/
theorem composerAfter_stands (composer : Composer Cell) (data : List UInt8) :
    Stands write composer.line (composerAfter write read composer data).line := by
  have walked : ∀ (walk : Grammar × Composer Cell) (old : List Cell),
      Stands write old walk.2.line → Stands write old (walkBytes write read walk data).2.line := by
    induction data with
    | nil => exact fun _ _ stands => stands
    | cons byte rest inductionHypothesis =>
        intro walk old stands
        refine inductionHypothesis _ old ?_
        unfold walkByte
        by_cases reaches : walk.1.state = .normal ∧ byte ≠ 0x1b
        · simpa only [if_pos reaches] using walk.2.type_stands stands _ byte
        · simpa only [if_neg reaches] using stands
  exact walked (Grammar.ground, composer) composer.line
    ⟨composer.line, [], by simp, List.prefix_rfl⟩

end Footprint

/-- The line a payload leaves, every byte with whether the payload typed it. -/
def lineByAge (line data : List UInt8) : List (UInt8 × Bool) :=
  (composerAfter (fun byte => (byte, true)) Prod.fst
    { line := line.map fun byte => (byte, false), draft := false } data).line

/-- How many bytes of its own the payload leaves on the line. -/
def typedBytes (line data : List UInt8) : Nat :=
  (lineByAge line data).countP fun cell => cell.2

/-- How many bytes of the line it found the payload takes away. -/
def erasedBytes (line data : List UInt8) : Nat :=
  line.length - (lineByAge line data).countP fun cell => !cell.2

/-! ## The line with its owners -/

inductive Provenance where
  | human
  | programmatic
  deriving DecidableEq

/-- What the wire's mark says about a payload. -/
def Provenance.ofMark (programmatic : Bool) : Provenance :=
  if programmatic then .programmatic else .human

/-- A runtime beside the owners of the bytes on its line. -/
structure Owned where
  runtime : Runtime
  cells : List (UInt8 × Provenance)
  deriving DecidableEq

/-- The operations on the line, each with what the writer queue answered. -/
inductive LineAction where
  | write (data : List UInt8) (programmatic : Bool) (outcome : EnqueueOutcome)
  | submit (expected : List UInt8) (outcome : EnqueueOutcome)
  | clearStale
  deriving DecidableEq

namespace Owned

def fresh : Owned where
  runtime := Runtime.fresh
  cells := []

/-- The cells a payload leaves: its own bytes are its author's. -/
def cellsAfter (cells : List (UInt8 × Provenance)) (author : Provenance)
    (data : List UInt8) : List (UInt8 × Provenance) :=
  (composerAfter (fun byte => (byte, author)) Prod.fst { line := cells, draft := false } data).line

def step (key : String) (owned : Owned) : LineAction → Owned
  | .write data programmatic outcome =>
      { runtime := (owned.runtime.writeWithProvenance key data programmatic outcome).2
        cells := cellsAfter owned.cells (Provenance.ofMark programmatic) data }
  | .submit expected outcome =>
      let submitted := owned.runtime.submitIfLineEquals key expected outcome
      { runtime := submitted.2
        cells := if submitted.1.1 = .submitted then [] else owned.cells }
  | .clearStale =>
      { runtime := owned.runtime.clearStalePendingInput
        cells := [] }

/-- The owners are those of the bytes on the line. -/
def Faithful (owned : Owned) : Prop :=
  owned.cells.map Prod.fst = owned.runtime.pendingInputLine

def HoldsHumanByte (owned : Owned) : Prop :=
  ∃ cell ∈ owned.cells, cell.2 = Provenance.human

/-- A line with a human's byte never passes for the daemon's own, and an empty
line carries no human mark. -/
structure Sound (owned : Owned) : Prop where
  protectsHuman : owned.HoldsHumanByte → owned.runtime.pendingLineIsProgrammaticOnly = false
  emptyUnmarked : owned.runtime.pendingInputLine = [] →
    owned.runtime.pendingInputLineHuman = false

/-- When the mark is right after the operation: a human payload that leaves bytes
of its own finds the mark set or makes the line longer, and no line with the mark
is submitted by comparison. -/
def Keeps (owned : Owned) : LineAction → Prop
  | .write data programmatic _ =>
      let line := owned.runtime.pendingInputLine
      programmatic = true ∨ owned.runtime.pendingInputLineHuman = true ∨
        typedBytes line data = 0 ∨ erasedBytes line data < typedBytes line data
  | .submit expected outcome =>
      owned.runtime.pendingInputLine = expected → outcome = .flushed →
        owned.runtime.pendingInputLineHuman = false
  | .clearStale => True

/-! ## One payload -/

/-- The bytes of the marked line are the line the source computes. -/
theorem map_fst_cellsAfter (cells : List (UInt8 × Provenance)) (author : Provenance)
    (data : List UInt8) (draft : Bool) :
    (cellsAfter cells author data).map Prod.fst =
      (inputLineAfter draft (cells.map Prod.fst) data).line := by
  let write : UInt8 → UInt8 × Provenance := fun byte => (byte, author)
  have projected : composerAfter (Prod.fst ∘ write) id _ data = _ :=
    composerAfter_map Prod.fst id (fun _ => rfl) { line := cells, draft := false } data
  rw [inputLineAfter, composerAfter_line_draft _ draft false]
  exact (congrArg Composer.line projected).symm

/-- The cells before and after a payload, and the same by age.  Both are read off
one walk whose cells remember their owner only if they are old. -/
theorem cellsAfter_eq (cells : List (UInt8 × Provenance)) (author : Provenance)
    (data : List UInt8) :
    ∃ (kept : List (UInt8 × Provenance)) (typed : List UInt8),
      kept <+: cells ∧
      cellsAfter cells author data = kept ++ typed.map (fun byte => (byte, author)) ∧
      lineByAge (cells.map Prod.fst) data =
        kept.map (fun cell => (cell.1, false)) ++ typed.map (fun byte => (byte, true)) := by
  let old : UInt8 × Provenance → UInt8 × Option Provenance := fun cell => (cell.1, some cell.2)
  let new : UInt8 → UInt8 × Option Provenance := fun byte => (byte, none)
  let start : Composer (UInt8 × Option Provenance) := { line := cells.map old, draft := false }
  have stands : Stands new start.line (composerAfter new Prod.fst start data).line :=
    composerAfter_stands start data
  obtain ⟨kept, typed, walked, isPrefix⟩ := stands
  obtain ⟨keptCells, keptPrefix, rfl⟩ : ∃ keptCells, keptCells <+: cells ∧
      kept = keptCells.map old := by
    refine ⟨cells.take kept.length, List.take_prefix _ _, ?_⟩
    rw [List.map_take]
    exact List.prefix_iff_eq_take.mp isPrefix
  refine ⟨keptCells, typed, keptPrefix, ?_, ?_⟩
  · let own : UInt8 × Option Provenance → UInt8 × Provenance :=
      fun cell => (cell.1, cell.2.getD author)
    have owners : composerAfter (own ∘ new) Prod.fst (start.map own) data =
        (composerAfter new Prod.fst start data).map own :=
      composerAfter_map own Prod.fst (fun _ => rfl) start data
    have lines := congrArg Composer.line owners
    simp only [Composer.map, walked, List.map_map, List.map_append] at lines
    simpa [cellsAfter, Function.comp_def, old, new, own, start] using lines
  · let age : UInt8 × Option Provenance → UInt8 × Bool := fun cell => (cell.1, cell.2.isNone)
    have ages : composerAfter (age ∘ new) Prod.fst (start.map age) data =
        (composerAfter new Prod.fst start data).map age :=
      composerAfter_map age Prod.fst (fun _ => rfl) start data
    have lines := congrArg Composer.line ages
    simp only [Composer.map, walked, List.map_map, List.map_append] at lines
    simpa [lineByAge, Function.comp_def, old, new, age, start] using lines

/-- What a payload leaves of a runtime's line: the first `kept` cells, then the
bytes `typed`. -/
structure Leaves (owned : Owned) (data : List UInt8) (author : Provenance)
    (kept : List (UInt8 × Provenance)) (typed : List UInt8) : Prop where
  isPrefix : kept <+: owned.cells
  owners : cellsAfter owned.cells author data = kept ++ typed.map (fun byte => (byte, author))
  typedCount : typedBytes owned.runtime.pendingInputLine data = typed.length
  erasedCount : erasedBytes owned.runtime.pendingInputLine data =
    owned.runtime.pendingInputLine.length - kept.length

theorem exists_leaves (owned : Owned) (data : List UInt8) (author : Provenance)
    (faithful : owned.Faithful) : ∃ kept typed, owned.Leaves data author kept typed := by
  obtain ⟨kept, typed, isPrefix, owners, ages⟩ := cellsAfter_eq owned.cells author data
  rw [faithful] at ages
  refine ⟨kept, typed, isPrefix, owners, ?_, ?_⟩
  · simp [typedBytes, ages, List.countP_map, Function.comp_def, List.countP_eq_length.mpr]
  · simp [erasedBytes, ages, List.countP_map, Function.comp_def, List.countP_eq_length.mpr]

section Leaves

variable {owned : Owned} {data : List UInt8} {programmatic : Bool}
  {kept : List (UInt8 × Provenance)} {typed : List UInt8}

theorem Leaves.line_eq {author : Provenance} (leaves : owned.Leaves data author kept typed)
    (faithful : owned.Faithful) (draft : Bool) :
    (inputLineAfter draft owned.runtime.pendingInputLine data).line =
      kept.map Prod.fst ++ typed := by
  rw [← faithful, ← map_fst_cellsAfter _ author, leaves.owners]
  simp [Function.comp_def]

theorem Leaves.grows_iff {author : Provenance} (leaves : owned.Leaves data author kept typed)
    (faithful : owned.Faithful) :
    owned.runtime.pendingInputLine.length < (kept.map Prod.fst ++ typed).length ↔
      erasedBytes owned.runtime.pendingInputLine data <
        typedBytes owned.runtime.pendingInputLine data := by
  have keptLength := leaves.isPrefix.length_le
  have lineLength : owned.cells.length = owned.runtime.pendingInputLine.length := by
    rw [← faithful, List.length_map]
  rw [List.length_append, List.length_map, leaves.erasedCount, leaves.typedCount]
  omega

/-- The mark after a payload. -/
theorem Leaves.mark_iff (leaves : owned.Leaves data (.ofMark programmatic) kept typed)
    (faithful : owned.Faithful) (key : String) (nonempty : data ≠ []) (outcome : EnqueueOutcome) :
    (owned.step key (.write data programmatic outcome)).runtime.pendingInputLineHuman = true ↔
      kept.map Prod.fst ++ typed ≠ [] ∧ (owned.runtime.pendingInputLineHuman = true ∨
        programmatic = false ∧ erasedBytes owned.runtime.pendingInputLine data <
          typedBytes owned.runtime.pendingInputLine data) := by
  simp only [step, Runtime.writeWithProvenance, if_neg nonempty, Runtime.recordWrite,
    leaves.line_eq faithful, leaves.grows_iff faithful]
  split_ifs <;> simp_all

end Leaves

/-! ## One operation -/

theorem step_faithful (key : String) (owned : Owned) (action : LineAction)
    (faithful : owned.Faithful) : (owned.step key action).Faithful := by
  cases action with
  | write data programmatic outcome =>
      by_cases empty : data = []
      · subst empty
        exact faithful
      · rw [Faithful, step, map_fst_cellsAfter _ _ _ owned.runtime.pendingInputDraft, faithful]
        simp [Runtime.writeWithProvenance, empty, Runtime.recordWrite]
  | submit expected outcome =>
      rcases owned.runtime.submitIfLineEquals_cases key expected outcome with
        ⟨_, _, submitted⟩ | ⟨_, refused, _, unchanged⟩
      · simp [Faithful, step, submitted]
      · simpa only [Faithful, step, if_neg refused, unchanged] using faithful
  | clearStale => rfl

/-- On a sound line a human's byte comes with the mark. -/
theorem HoldsHumanByte.marked {owned : Owned} (human : owned.HoldsHumanByte)
    (faithful : owned.Faithful) (sound : owned.Sound) :
    owned.runtime.pendingInputLineHuman = true := by
  have protects := sound.protectsHuman human
  obtain ⟨cell, member, _⟩ := human
  have standing : owned.runtime.pendingInputLine ≠ [] := by
    rw [← faithful]
    exact List.ne_nil_of_mem (List.mem_map_of_mem member)
  simpa [Runtime.pendingLineIsProgrammaticOnly, standing] using protects

theorem keeps_of_write_sound (key : String) (owned : Owned) (data : List UInt8)
    (programmatic : Bool) (outcome : EnqueueOutcome) (nonempty : data ≠ [])
    (faithful : owned.Faithful)
    (nextSound : (owned.step key (.write data programmatic outcome)).Sound) :
    owned.Keeps (.write data programmatic outcome) := by
  have nextFaithful := step_faithful key owned (.write data programmatic outcome) faithful
  obtain ⟨kept, typed, leaves⟩ := exists_leaves owned data (.ofMark programmatic) faithful
  by_contra breaks
  simp only [Keeps, not_or, Bool.not_eq_true] at breaks
  obtain ⟨byHuman, unmarked, typesSome, notLonger⟩ := breaks
  rw [leaves.typedCount] at typesSome
  obtain ⟨byte, typedByte⟩ := List.exists_mem_of_length_pos (Nat.pos_of_ne_zero typesSome)
  have human : (owned.step key (.write data programmatic outcome)).HoldsHumanByte := by
    refine ⟨(byte, .human), ?_, rfl⟩
    rw [step, leaves.owners]
    simp [typedByte, Provenance.ofMark, byHuman]
  have marked := (leaves.mark_iff faithful key nonempty outcome).mp
    (human.marked nextFaithful nextSound)
  rcases marked.2 with wasMarked | ⟨_, longer⟩
  · simp [unmarked] at wasMarked
  · exact notLonger longer

theorem write_sound_of_keeps (key : String) (owned : Owned) (data : List UInt8)
    (programmatic : Bool) (outcome : EnqueueOutcome) (nonempty : data ≠ [])
    (faithful : owned.Faithful) (sound : owned.Sound)
    (keeps : owned.Keeps (.write data programmatic outcome)) :
    (owned.step key (.write data programmatic outcome)).Sound := by
  obtain ⟨kept, typed, leaves⟩ := exists_leaves owned data (.ofMark programmatic) faithful
  have lineAfter : (owned.step key (.write data programmatic outcome)).runtime.pendingInputLine =
      kept.map Prod.fst ++ typed := by
    simp only [step, Runtime.writeWithProvenance, if_neg nonempty, Runtime.recordWrite,
      leaves.line_eq faithful]
  have markAfter := leaves.mark_iff faithful key nonempty outcome
  refine ⟨?_, ?_⟩
  · rintro ⟨cell, member, isHuman⟩
    have standing : kept.map Prod.fst ++ typed ≠ [] := by
      rw [step, leaves.owners] at member
      intro gone
      simp_all
    rw [Runtime.pendingLineIsProgrammaticOnly, markAfter.mpr ⟨standing, ?_⟩]
    · simp
    rw [step, leaves.owners] at member
    rcases List.mem_append.mp member with old | new
    · have human : owned.HoldsHumanByte := ⟨cell, leaves.isPrefix.subset old, isHuman⟩
      exact .inl (human.marked faithful sound)
    · obtain ⟨byte, typedByte, rfl⟩ := List.mem_map.mp new
      have typesSome : typedBytes owned.runtime.pendingInputLine data ≠ 0 := by
        rw [leaves.typedCount]
        exact Nat.ne_of_gt (List.length_pos_of_mem typedByte)
      have byHuman : programmatic = false := by
        cases programmatic with
        | false => rfl
        | true => cases isHuman
      rcases keeps with isProgrammatic | marked | typesNone | longer
      · simp [byHuman] at isProgrammatic
      · exact .inl marked
      · exact absurd typesNone typesSome
      · exact .inr ⟨byHuman, longer⟩
  · intro empty
    rw [lineAfter] at empty
    rw [← Bool.not_eq_true, markAfter]
    exact fun marked => marked.1 empty

theorem step_sound_iff (key : String) (owned : Owned) (action : LineAction)
    (faithful : owned.Faithful) (sound : owned.Sound) :
    (owned.step key action).Sound ↔ owned.Keeps action := by
  cases action with
  | write data programmatic outcome =>
      by_cases empty : data = []
      · subst empty
        refine ⟨fun _ => .inr (.inr (.inl ?_)), fun _ => sound⟩
        simp [typedBytes, lineByAge, composerAfter, List.countP_map, Function.comp_def]
      · exact ⟨keeps_of_write_sound key owned data programmatic outcome empty faithful,
          write_sound_of_keeps key owned data programmatic outcome empty faithful sound⟩
  | submit expected outcome =>
      rcases owned.runtime.submitIfLineEquals_cases key expected outcome with
        ⟨same, flushed, submitted⟩ | ⟨notSubmitted, refused, _, unchanged⟩
      · simp only [step, submitted, if_pos]
        constructor
        · exact fun nextSound _ _ => nextSound.emptyUnmarked rfl
        · exact fun keeps => ⟨fun _ => rfl, fun _ => keeps same flushed⟩
      · have stays : owned.step key (.submit expected outcome) = owned := by
          simp only [step, if_neg refused, unchanged]
        rw [stays]
        exact ⟨fun _ same flushed => absurd ⟨same, flushed⟩ notSubmitted, fun _ => sound⟩
  | clearStale =>
      exact ⟨fun _ => trivial, fun _ => ⟨fun _ => rfl, fun _ => rfl⟩⟩

/-! ## Whole runs -/

/-- In every run of writes, submits and stale clears from a fresh runtime, the
mark is right all along exactly when every operation keeps it right. -/
theorem always_sound_iff_guarded (key : String) (actions : List LineAction) :
    Runs.Always (step key) Sound fresh actions ↔ Runs.Guarded (step key) Keeps fresh actions := by
  have initially : fresh.Faithful := rfl
  have holds : fresh.Sound := ⟨fun _ => rfl, fun _ => rfl⟩
  exact Runs.always_iff_guarded (step_faithful key) (step_sound_iff key) initially holds actions

/-- A human types `x` and a caller submits `x`: the line is gone, its mark stays. -/
theorem submit_leaves_mark_on_empty_line :
    ¬ ∀ (key : String) (actions : List LineAction),
      Runs.Always (step key) Sound fresh actions := by
  intro always
  have run := always "" [.write [0x78] false .flushed, .submit [0x78] .flushed]
  have marked := run.2.2.emptyUnmarked (by decide)
  revert marked
  decide

end Owned

end Yggterm.InputLine
