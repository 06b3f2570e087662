import Yggterm.Library.Runs
import Yggterm.TerminalStream.Screen

/-!
# Snapshot stamps

`screen_snapshot_stamped` hands out the screen with a sequence number up to which
the screen is said to contain the stream.  It takes no chunk lock: it loads the
number, then the injected-ring floor, then looks for a memo or renders.
-/

namespace Yggterm.TerminalStream

/-! ## The snapshot calls -/

/-- `ScreenSnapshotKey`; the sizes are whatever the concurrent resizes left. -/
structure SnapshotKey where
  outputSeq : Nat
  resizeSeq : Nat
  ptyCols : Nat
  modelSize : Option (Nat × Nat)
  deriving DecidableEq

/-- A call between two of its loads.  A text stands as the screen it was rendered
from. -/
inductive SnapshotCall where
  | keyed (key : SnapshotKey)
  | stamped (key : SnapshotKey) (stamp : Nat)
  | missed (key : SnapshotKey) (stamp : Nat)
  | rendered (key : SnapshotKey) (stamp : Nat) (screen : List String)
  deriving DecidableEq

structure Snapshot where
  screen : List String
  stamp : Nat
  deriving DecidableEq

/-- The stream with its memo slot, the calls under way and the answers given. -/
structure Snapshots where
  stream : Stream
  memo : Option (SnapshotKey × List String)
  calls : List SnapshotCall
  answers : List Snapshot
  deriving DecidableEq

inductive SnapshotAction where
  | move (action : Stream.Action)
  | begin (resizeSeq ptyCols : Nat) (modelSize : Option (Nat × Nat))
  | advance (index : Nat)
  deriving DecidableEq

namespace Snapshots

def assemble (seed : Option String) : Snapshots where
  stream := Stream.assemble seed
  memo := none
  calls := []
  answers := []

def replaceCall (snapshots : Snapshots) (index : Nat) (call : SnapshotCall) : Snapshots :=
  { snapshots with calls := snapshots.calls.set index call }

def answer (snapshots : Snapshots) (index : Nat) (screen : List String) (stamp : Nat) :
    Snapshots :=
  { snapshots with
    calls := snapshots.calls.eraseIdx index
    answers := snapshots.answers ++ [{ screen, stamp }] }

/-- The next load or store of a call. -/
def advance (snapshots : Snapshots) (index : Nat) : SnapshotCall → Snapshots
  | .keyed key =>
      snapshots.replaceCall index
        (.stamped key (cappedSeedStamp key.outputSeq snapshots.stream.floor))
  | .stamped key stamp =>
      match snapshots.memo with
      | some (memoKey, screen) =>
          if memoKey = key then snapshots.answer index screen stamp
          else snapshots.replaceCall index (.missed key stamp)
      | none => snapshots.replaceCall index (.missed key stamp)
  | .missed key stamp => snapshots.replaceCall index (.rendered key stamp snapshots.stream.screen)
  | .rendered key stamp screen =>
      { snapshots.answer index screen stamp with memo := some (key, screen) }

def step (key : String) (snapshots : Snapshots) : SnapshotAction → Snapshots
  | .move action => { snapshots with stream := snapshots.stream.step key action }
  | .begin resizeSeq ptyCols modelSize =>
      { snapshots with
        calls := snapshots.calls ++
          [.keyed { outputSeq := snapshots.stream.seq, resizeSeq, ptyCols, modelSize }] }
  | .advance index =>
      match snapshots.calls[index]? with
      | none => snapshots
      | some call => snapshots.advance index call

/-- The screen began with the payloads of the chunks up to the stamp. -/
def Honest (stream : Stream) (snapshot : Snapshot) : Prop :=
  (between stream.history 0 snapshot.stamp).map Chunk.data <+: snapshot.screen

instance (stream : Stream) (snapshot : Snapshot) : Decidable (Honest stream snapshot) :=
  inferInstanceAs (Decidable (_ <+: _))

def StampsHonest (snapshots : Snapshots) : Prop :=
  ∀ snapshot ∈ snapshots.answers, Honest snapshots.stream snapshot

end Snapshots

/-! ## Honest stamps -/

namespace Snapshots

/-- The condition on a step: when a call loads the floor and finds none, no chunk
that bypasses the screen, the reader's error or a contract line whose cap is still
to come, has a number the call has loaded. -/
def Timely (snapshots : Snapshots) : SnapshotAction → Prop
  | .advance index =>
      ∀ key, snapshots.calls[index]? = some (.keyed key) → snapshots.stream.floor = 0 →
        ∀ chunk, snapshots.stream.errorChunk = some chunk ∨
            snapshots.stream.uncapped = some chunk →
          key.outputSeq < chunk.seq
  | _ => True

/-- The screen holds the chunks up to the number, as far as none of them bypasses
it. -/
def Covers (stream : Stream) (seq : Nat) (screen : List String) : Prop :=
  seq ≤ stream.seq ∧ ∀ stamp ≤ seq, stream.Clear stamp →
    (between stream.history 0 stamp).map Chunk.data <+: screen

/-- The stamp was taken from the number the call loaded, below all that bypasses. -/
def Stamped (stream : Stream) (seq stamp : Nat) : Prop :=
  seq ≤ stream.seq ∧ stamp ≤ seq ∧ stream.Clear stamp

def CallSound (stream : Stream) : SnapshotCall → Prop
  | .keyed key => key.outputSeq ≤ stream.seq
  | .stamped key stamp => Stamped stream key.outputSeq stamp
  | .missed key stamp => Stamped stream key.outputSeq stamp
  | .rendered key stamp screen =>
      Stamped stream key.outputSeq stamp ∧ Covers stream key.outputSeq screen

structure Invariant (snapshots : Snapshots) : Prop where
  screened : snapshots.stream.Screened
  floored : snapshots.stream.Floored
  memo : ∀ key screen, snapshots.memo = some (key, screen) →
    Covers snapshots.stream key.outputSeq screen
  calls : ∀ call ∈ snapshots.calls, CallSound snapshots.stream call
  answers : ∀ snapshot ∈ snapshots.answers, snapshot.stamp ≤ snapshots.stream.seq ∧
    Honest snapshots.stream snapshot

/-! ### The stream moves on -/

section Extends

variable {stream next : Stream} (extended : stream.Extends next)

include extended

theorem Covers.extends {seq : Nat} {screen : List String} (covers : Covers stream seq screen) :
    Covers next seq screen := by
  refine ⟨Nat.le_trans covers.1 extended.seq_le, fun stamp within clear => ?_⟩
  rw [between_extends extended (Nat.le_trans within covers.1)]
  refine covers.2 stamp within ?_
  exact fun bypassing member => clear bypassing (extended.unscreened_subset member)

theorem Stamped.extends {seq stamp : Nat} (stamped : Stamped stream seq stamp) :
    Stamped next seq stamp := by
  obtain ⟨loaded, within, clear⟩ := stamped
  refine ⟨Nat.le_trans loaded extended.seq_le, within, fun bypassing member => ?_⟩
  rcases extended.unscreened_fresh bypassing member with old | new
  · exact clear bypassing old
  · omega

theorem CallSound.extends {call : SnapshotCall} (sound : CallSound stream call) :
    CallSound next call := by
  cases call with
  | keyed key => exact Nat.le_trans sound extended.seq_le
  | stamped key stamp => exact Stamped.extends extended sound
  | missed key stamp => exact Stamped.extends extended sound
  | rendered key stamp screen =>
      exact ⟨Stamped.extends extended sound.1, Covers.extends extended sound.2⟩

end Extends

theorem Invariant.move {snapshots : Snapshots} (invariant : snapshots.Invariant) (key : String)
    (action : Stream.Action) : (snapshots.step key (.move action)).Invariant := by
  have moved := snapshots.stream.step_move key action
  have extended := moved.extends
  refine ⟨moved.screened invariant.screened, moved.floored invariant.floored, ?_, ?_, ?_⟩
  · exact fun memoKey screen isMemo => (invariant.memo memoKey screen isMemo).extends extended
  · exact fun call member => (invariant.calls call member).extends extended
  · intro snapshot member
    obtain ⟨known, honest⟩ := invariant.answers snapshot member
    refine ⟨Nat.le_trans known extended.seq_le, ?_⟩
    simpa only [Honest, step, between_extends extended known] using honest

/-! ### A call moves on -/

theorem Invariant.replaceCall {snapshots : Snapshots} (invariant : snapshots.Invariant)
    (index : Nat) {call : SnapshotCall} (sound : CallSound snapshots.stream call) :
    (snapshots.replaceCall index call).Invariant := by
  refine ⟨invariant.screened, invariant.floored, invariant.memo, ?_, invariant.answers⟩
  intro other member
  rcases List.mem_or_eq_of_mem_set member with old | rfl
  · exact invariant.calls other old
  · exact sound

theorem Invariant.answer {snapshots : Snapshots} (invariant : snapshots.Invariant)
    (index : Nat) {seq stamp : Nat} {screen : List String}
    (stamped : Stamped snapshots.stream seq stamp) (covers : Covers snapshots.stream seq screen) :
    (snapshots.answer index screen stamp).Invariant := by
  refine ⟨invariant.screened, invariant.floored, invariant.memo, ?_, ?_⟩
  · exact fun call member => invariant.calls call (List.mem_of_mem_eraseIdx member)
  · refine List.forall_mem_append.mpr ⟨invariant.answers, ?_⟩
    simp only [List.mem_singleton, forall_eq]
    exact ⟨Nat.le_trans stamped.2.1 stamped.1, covers.2 stamp stamped.2.1 stamped.2.2⟩

/-- The floor makes the stamp sound, or the condition does. -/
theorem Stamped.of_floor {stream : Stream} (floored : stream.Floored) {seq : Nat}
    (loaded : seq ≤ stream.seq)
    (timely : stream.floor = 0 → ∀ chunk, stream.errorChunk = some chunk ∨
      stream.uncapped = some chunk → seq < chunk.seq) :
    Stamped stream seq (cappedSeedStamp seq stream.floor) := by
  unfold cappedSeedStamp
  split
  · next someFloor =>
      refine ⟨loaded, Nat.min_le_left _ _, fun bypassing member => ?_⟩
      have := floored.lowest bypassing member
      omega
  · next noFloor =>
      have noFloor : stream.floor = 0 := by omega
      refine ⟨loaded, Nat.le_refl _, fun bypassing member => ?_⟩
      obtain ⟨chunk, rfl, bypasses⟩ := floored.explained noFloor bypassing member
      exact timely noFloor chunk bypasses

theorem step_invariant (key : String) (snapshots : Snapshots) (action : SnapshotAction)
    (invariant : snapshots.Invariant) (timely : snapshots.Timely action) :
    (snapshots.step key action).Invariant := by
  cases action with
  | move action => exact invariant.move key action
  | begin resizeSeq ptyCols modelSize =>
      refine ⟨invariant.screened, invariant.floored, invariant.memo, ?_, invariant.answers⟩
      refine List.forall_mem_append.mpr ⟨invariant.calls, ?_⟩
      simp only [List.mem_singleton, forall_eq]
      exact Nat.le_refl _
  | advance index =>
      simp only [step]
      cases isCall : snapshots.calls[index]? with
      | none => exact invariant
      | some call =>
          have sound := invariant.calls call (List.mem_of_getElem? isCall)
          cases call with
          | keyed snapshotKey =>
              refine invariant.replaceCall index ?_
              exact Stamped.of_floor invariant.floored sound (timely snapshotKey isCall)
          | stamped snapshotKey stamp =>
              simp only [advance]
              split
              · next memoKey screen isMemo =>
                  split
                  · next hit =>
                      subst hit
                      exact invariant.answer index sound (invariant.memo memoKey screen isMemo)
                  · exact invariant.replaceCall index sound
              · exact invariant.replaceCall index sound
          | missed snapshotKey stamp =>
              refine invariant.replaceCall index ⟨sound, sound.1, fun other within clear => ?_⟩
              exact invariant.screened.covered other (Nat.le_trans within sound.1) clear
          | rendered snapshotKey stamp screen =>
              have answered := invariant.answer index sound.1 sound.2
              refine ⟨answered.screened, answered.floored, ?_, answered.calls, answered.answers⟩
              rintro memoKey memoScreen ⟨⟩
              exact sound.2

/-- In every run whose floor loads are timely, every snapshot handed out contains
the chunks its stamp claims. -/
theorem always_stampsHonest (key : String) (seed : Option String) (actions : List SnapshotAction)
    (timely : Runs.Guarded (step key) Timely (assemble seed) actions) :
    Runs.Always (step key) StampsHonest (assemble seed) actions := by
  have initially : (assemble seed).Invariant :=
    { screened := Stream.assemble_screened seed
      floored := Stream.assemble_floored seed
      memo := by simp [assemble]
      calls := by simp [assemble]
      answers := by simp [assemble] }
  refine Runs.always_of_guarded (step_invariant key) ?_ initially timely
  exact fun snapshots invariant snapshot member => (invariant.answers snapshot member).2

/-- A payload whose commit injected a contract line: the stamp stays below it. -/
theorem always_stampsHonest_of_contract_line :
    let actions : List SnapshotAction :=
      [.move (.commit "b" ["refused"]), .move .work, .move .work, .move .work, .move .work,
        .move .work, .move .work, .begin 0 80 none, .advance 0, .advance 0, .advance 0, .advance 0]
    (Runs.run (step "k") (assemble (some "a")) actions).answers =
        [{ screen := ["a", "b"], stamp := 1 }] ∧
      Runs.Always (step "k") StampsHonest (assemble (some "a")) actions := by
  intro actions
  refine ⟨by decide, always_stampsHonest "k" (some "a") actions ?_⟩
  have floored : ∀ snapshots : Snapshots, snapshots.stream.floor ≠ 0 →
      snapshots.Timely (.advance 0) := fun _ some _ _ none => absurd none some
  exact ⟨trivial, trivial, trivial, trivial, trivial, trivial, trivial, trivial,
    floored _ (by decide), floored _ (by decide), floored _ (by decide), floored _ (by decide),
    trivial⟩

/-- The reader fails and a client takes a snapshot: its stamp claims the error
chunk, which no screen has processed. -/
theorem stamp_claims_reader_error :
    ¬ ∀ (key : String) (seed : Option String) (actions : List SnapshotAction),
      Runs.Always (step key) StampsHonest (assemble seed) actions := by
  intro always
  have run := always "k" (some "a") [.move (.fail "e"), .begin 0 80 none, .advance 0, .advance 0,
    .advance 0, .advance 0]
  have honest := run.2.2.2.2.2.2 { screen := ["a"], stamp := 2 } (by decide)
  revert honest
  decide

end Snapshots

end Yggterm.TerminalStream
