import Yggterm.HotRestart.Repair

/-!
# Which daemon repairs a session

Whole calls of any daemons, one after the other, all within one repair window.  Beside
the file the state keeps what the file is for: who made the latest recording of each key,
and which keys are still owed their `continue`.  The file has one recorder's pid for all
its keys, so it goes to the right daemon exactly as long as one daemon recorded them all.
-/

namespace Yggterm.HotRestart

open Runs

/-- A call by a daemon. -/
inductive RepairCall where
  | record (incoming : InterruptedSessions)
  | takeRepairable (nowMs myPid : Nat) (ownedKeys : List String)
  | requeueUnsubmitted (origin : RepairOrigin) (sessions : List String)

/-- The clock of the call is within the window that starts then. -/
def RepairCall.Within (start : Nat) : RepairCall → Prop
  | .record incoming =>
      start ≤ incoming.recordedAtMs ∧ incoming.recordedAtMs ≤ start + repairWindowMs
  | .takeRepairable nowMs _ _ => start ≤ nowMs ∧ nowMs ≤ start + repairWindowMs
  | .requeueUnsubmitted origin _ =>
      start ≤ origin.recordedAtMs ∧ origin.recordedAtMs ≤ start + repairWindowMs

abbrev WindowCall (start : Nat) := { call : RepairCall // call.Within start }

structure Recorders where
  file : RepairFile
  recorder : String → Option Nat
  owed : String → Bool

/-- No record yet. -/
def Recorders.initial : Recorders := ⟨none, fun _ => none, fun _ => false⟩

def Recorders.perform (state : Recorders) : RepairCall → Recorders
  | .record incoming =>
      { file := (recordFrom state.file incoming).apply state.file
        recorder := fun key =>
          if key ∈ incoming.sessions then some incoming.recordedByPid else state.recorder key
        owed := fun key => state.owed key || decide (key ∈ incoming.sessions) }
  | .takeRepairable nowMs myPid ownedKeys =>
      let taken := takeFrom state.file nowMs myPid ownedKeys
      { state with
        file := taken.1.apply state.file
        owed := fun key => state.owed key && !decide (key ∈ taken.2.returned) }
  | .requeueUnsubmitted origin sessions =>
      { state with
        file := (requeueFrom state.file origin sessions).apply state.file
        owed := fun key => state.owed key || decide (key ∈ sessions) }

def recordersStep {start : Nat} (state : Recorders) (call : WindowCall start) : Recorders :=
  state.perform call.val

/-- Whichever daemon takes next, it gets no key that it recorded last itself, and every
owed key of its own that another daemon recorded last. -/
def Recorders.TakesRight (start : Nat) (state : Recorders) : Prop :=
  ∀ nowMs myPid ownedKeys, nowMs ≤ start + repairWindowMs →
    let returned := (takeFrom state.file nowMs myPid ownedKeys).2.returned
    (∀ key ∈ returned, state.recorder key ≠ some myPid) ∧
      ∀ key ∈ ownedKeys, state.owed key → ∀ other, state.recorder key = some other →
        other ≠ myPid → key ∈ returned

/-- The latest recording of the key, if it has one, was made by the daemon. -/
def Recorders.LastRecordedBy (state : Recorders) (pid : Nat) (key : String) : Prop :=
  ∀ recorder, state.recorder key = some recorder → recorder = pid

/-- Every key that the call leaves in the file under its pid was last recorded by the
daemon of that pid. -/
def Recorders.OneRecorder (state : Recorders) : RepairCall → Prop
  | .record incoming => incoming.sessions ≠ [] → ∀ key ∈ state.file.keys,
      key ∉ incoming.sessions → state.LastRecordedBy incoming.recordedByPid key
  | .takeRepairable _ _ _ => True
  | .requeueUnsubmitted origin sessions => sessions ≠ [] → ∀ key,
      key ∈ sessions ∨ key ∈ state.file.keys → state.LastRecordedBy origin.recordedByPid key

/-! ## The file holds what is owed -/

/-- The owed keys are those of the file, and its clock has not left the window. -/
structure Recorders.Consistent (start : Nat) (state : Recorders) : Prop where
  owed_iff : ∀ key, state.owed key = true ↔ key ∈ state.file.keys
  recent : ∀ record, state.file = some record → start ≤ record.recordedAtMs

theorem Recorders.initial_consistent (start : Nat) : Recorders.initial.Consistent start where
  owed_iff key := by simp [initial]
  recent record isRecord := by cases isRecord

theorem recordFrom_keys {loaded : RepairFile} {incoming : InterruptedSessions} {key : String} :
    key ∈ ((recordFrom loaded incoming).apply loaded).keys ↔
      key ∈ incoming.sessions ∨ key ∈ loaded.keys := by
  rw [recordFrom]
  split
  · next empty => simp [RepairWrite.apply, empty]
  · exact mem_mergeForWrite

theorem requeueFrom_keys {loaded : RepairFile} {origin : RepairOrigin} {sessions : List String}
    {key : String} :
    key ∈ ((requeueFrom loaded origin sessions).apply loaded).keys ↔
      key ∈ sessions ∨ key ∈ loaded.keys := by
  unfold requeueFrom
  split
  · next empty => simp [RepairWrite.apply, empty]
  · exact mem_mergeForWrite

theorem Recorders.consistent_perform {start : Nat} {state : Recorders}
    (consistent : state.Consistent start) {call : RepairCall} (within : call.Within start) :
    (state.perform call).Consistent start := by
  cases call with
  | record incoming =>
      refine ⟨fun key => ?_, fun record isRecord => ?_⟩
      · simp only [perform, Bool.or_eq_true, decide_eq_true_eq, consistent.owed_iff key]
        rw [recordFrom_keys, or_comm]
      · simp only [perform, recordFrom] at isRecord
        split at isRecord
        · exact consistent.recent record isRecord
        · cases isRecord
          exact within.1
  | takeRepairable nowMs myPid ownedKeys =>
      obtain ⟨noneReturned, isLeave | ⟨_, record, isFile, late⟩⟩ |
        ⟨record, isFile, _, isReturned, writes⟩ :=
          takeFrom_cases state.file nowMs myPid ownedKeys
      · refine ⟨fun key => ?_, fun record isRecord => ?_⟩
        · simp only [perform, noneReturned, isLeave, List.not_mem_nil, decide_false, Bool.not_false,
            Bool.and_true]
          exact consistent.owed_iff key
        · simp only [perform, isLeave] at isRecord
          exact consistent.recent record isRecord
      · have recent := consistent.recent record isFile
        have inTime : nowMs ≤ start + repairWindowMs := within.2
        omega
      · refine ⟨fun key => ?_, fun written isWritten => ?_⟩
        · have owedIff := consistent.owed_iff key
          rw [isFile] at owedIff
          simp only [perform, isReturned, (writes state.file).1, Bool.and_eq_true,
            Bool.not_eq_true', decide_eq_false_iff_not, List.mem_filter, decide_eq_true_eq, owedIff,
            RepairFile.keys_some]
          tauto
        · rw [((writes state.file).2 written isWritten).2]
          exact consistent.recent record isFile
  | requeueUnsubmitted origin sessions =>
      refine ⟨fun key => ?_, fun record isRecord => ?_⟩
      · simp only [perform, Bool.or_eq_true, decide_eq_true_eq, consistent.owed_iff key]
        rw [requeueFrom_keys, or_comm]
      · simp only [perform, requeueFrom] at isRecord
        split at isRecord
        · exact consistent.recent record isRecord
        · cases isRecord
          cases isFile : state.file with
          | none => exact within.1
          | some existing => exact Nat.le_trans within.1 (Nat.le_max_right _ _)

/-! ## One recorder for the file -/

/-- All keys of the file were last recorded by the daemon whose pid it has. -/
def Recorders.Uniform (state : Recorders) : Prop :=
  ∀ record, state.file = some record →
    ∀ key ∈ record.sessions, state.LastRecordedBy record.recordedByPid key

theorem Recorders.takesRight_iff_uniform {start : Nat} {state : Recorders}
    (consistent : state.Consistent start) : state.TakesRight start ↔ state.Uniform := by
  constructor
  · intro right record isFile key member recorder isRecorder
    -- The file's own daemon, owning the key, would be sent away.
    apply Classical.byContradiction
    intro different
    have owed := (consistent.owed_iff key).mpr (by rw [isFile]; exact member)
    have returned := (right start record.recordedByPid [key] (Nat.le_add_right _ _)).2 key
      (List.mem_singleton_self key) owed recorder isRecorder different
    obtain ⟨noneReturned, _⟩ | ⟨other, isOther, foreign, _⟩ :=
      takeFrom_cases state.file start record.recordedByPid [key]
    · rw [noneReturned] at returned
      cases returned
    · rw [isFile, Option.some.injEq] at isOther
      exact foreign (congrArg InterruptedSessions.recordedByPid isOther.symm)
  · intro uniform nowMs myPid ownedKeys inTime
    constructor
    · intro key member isMine
      obtain ⟨noneReturned, _⟩ | ⟨record, isFile, foreign, isReturned, _⟩ :=
        takeFrom_cases state.file nowMs myPid ownedKeys
      · rw [noneReturned] at member
        cases member
      · rw [isReturned] at member
        exact foreign (uniform record isFile key (List.mem_filter.mp member).1 myPid isMine).symm
    · intro key owned owed other isOther foreign
      have inFile := (consistent.owed_iff key).mp owed
      cases isFile : state.file with
      | none =>
          rw [isFile] at inFile
          cases inFile
      | some record =>
          rw [isFile] at inFile
          have isRecorder := uniform record isFile key inFile other isOther
          have recent := consistent.recent record isFile
          have onTime : ¬ nowMs - record.recordedAtMs > repairWindowMs := by omega
          have mine : key ∈ record.sessions.filter (fun key => key ∈ ownedKeys) := by
            simpa [owned] using inFile
          simp only [takeFrom, onTime, if_false, ← isRecorder, foreign,
            List.ne_nil_of_mem mine, RepairVerdict.returned]
          exact mine

/-- A call keeps the file to one recorder exactly when it meets the condition. -/
theorem Recorders.uniform_perform_iff {state : Recorders}
    (uniform : state.Uniform) (call : RepairCall) :
    (state.perform call).Uniform ↔ state.OneRecorder call := by
  cases call with
  | record incoming =>
      by_cases empty : incoming.sessions = []
      · simpa [Uniform, perform, OneRecorder, LastRecordedBy, recordFrom, RepairWrite.apply, empty]
          using uniform
      · simp only [Uniform, perform, OneRecorder, LastRecordedBy, recordFrom, empty,
          RepairWrite.apply, if_false, Option.some.injEq, forall_eq', mem_mergeForWrite, ne_eq,
          not_false_eq_true, forall_const]
        constructor
        · intro held key member notIncoming recorder isRecorder
          apply held key (.inr member) recorder
          rw [if_neg notIncoming]
          exact isRecorder
        · intro held key member recorder isRecorder
          by_cases isIncoming : key ∈ incoming.sessions
          · rw [if_pos isIncoming] at isRecorder
            exact (Option.some.inj isRecorder).symm
          · rw [if_neg isIncoming] at isRecorder
            exact held key (member.resolve_left isIncoming) isIncoming recorder isRecorder
  | takeRepairable nowMs myPid ownedKeys =>
      apply iff_of_true _ trivial
      intro written isWritten key member
      obtain ⟨_, isLeave | ⟨isClear, _⟩⟩ | ⟨record, isFile, _, _, writes⟩ :=
        takeFrom_cases state.file nowMs myPid ownedKeys
      · simp only [perform, isLeave] at isWritten
        exact uniform written isWritten key member
      · simp only [perform, isClear] at isWritten
        cases isWritten
      · have isKeys := (writes state.file).1
        simp only [perform] at isWritten
        rw [isWritten, RepairFile.keys_some] at isKeys
        rw [((writes state.file).2 written isWritten).1]
        rw [isKeys] at member
        exact uniform record isFile key (List.mem_filter.mp member).1
  | requeueUnsubmitted origin sessions =>
      by_cases empty : sessions = []
      · simpa [Uniform, perform, OneRecorder, LastRecordedBy, requeueFrom, RepairWrite.apply, empty]
          using uniform
      · simp only [Uniform, perform, OneRecorder, requeueFrom, empty, RepairWrite.apply, if_false,
          Option.some.injEq, forall_eq', mem_mergeForWrite, ne_eq, not_false_eq_true, forall_const]
        rfl

/-- In a run of calls within one window every take goes right exactly when each recording
and each requeue leaves in the file only keys last recorded by the pid it stamps. -/
theorem takes_right_iff_one_recorder (start : Nat) (calls : List (WindowCall start)) :
    Always recordersStep (Recorders.TakesRight start) Recorders.initial calls ↔
      Guarded recordersStep (fun state call => state.OneRecorder call.val) Recorders.initial
        calls := by
  have preserved : ∀ state (call : WindowCall start), Recorders.Consistent start state →
      (recordersStep state call).Consistent start := by
    intro state call consistent
    exact Recorders.consistent_perform consistent call.property
  apply always_iff_guarded preserved
  · intro state call consistent right
    apply (Recorders.takesRight_iff_uniform (preserved state call consistent)).trans
    exact Recorders.uniform_perform_iff
      ((Recorders.takesRight_iff_uniform consistent).mp right) call.val
  · exact Recorders.initial_consistent start
  · apply (Recorders.takesRight_iff_uniform (Recorders.initial_consistent start)).mpr
    intro record isRecord
    cases isRecord

/-- Two daemons record a session each. -/
def twoRecorders : List (WindowCall 0) :=
  [⟨.record ⟨1000, 111, "1.2.3", "", ["local://a"]⟩, by decide, by decide⟩,
    ⟨.record ⟨2000, 333, "1.2.3", "", ["local://b"]⟩, by decide, by decide⟩]

/-- The second recorder has adopted the session of the first, and is told that nothing is
owed. -/
theorem not_takes_right_of_two_recorders :
    ¬ Always recordersStep (Recorders.TakesRight 0) Recorders.initial twoRecorders := by
  intro always
  have right := always.2.2 3000 333 ["local://a"] (by decide)
  exact absurd (right.2 "local://a" (by simp) (by decide) 111 (by decide) (by decide)) (by decide)

end Yggterm.HotRestart
