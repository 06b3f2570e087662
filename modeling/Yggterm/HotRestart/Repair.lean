import Mathlib.Data.List.Basic
import Mathlib.Tactic.Common
import Yggterm.Library.Runs

/-!
# The repair record

`hot_restart_repair.rs`: one file names the sessions that forced swaps interrupted.  A
recorder adds to it, a repairer takes the keys it owns out of it, and a key whose
`continue` was never written is put back.  Every call loads the file, decides on what it
loaded, and then writes; the decision and the write are kept apart here, because other
daemons can write in between.
-/

namespace Yggterm.HotRestart

structure InterruptedSessions where
  recordedAtMs : Nat
  recordedByPid : Nat
  recordedByVersion : String
  reason : String
  sessions : List String
  deriving DecidableEq

structure RepairOrigin where
  recordedAtMs : Nat
  recordedByPid : Nat
  recordedByVersion : String
  reason : String
  deriving DecidableEq

inductive RepairVerdict where
  | nothing
  | expired (ageMs : Nat) (sessions : List String)
  | repair (origin : RepairOrigin) (sessions : List String)
  deriving DecidableEq

/-- The keys that a verdict hands to the caller to repair. -/
def RepairVerdict.returned : RepairVerdict → List String
  | .repair _ sessions => sessions
  | _ => []

/-- What `load` reads: nothing when the file is absent or cannot be read. -/
abbrev RepairFile := Option InterruptedSessions

def RepairFile.keys (file : RepairFile) : List String := (file.map (·.sessions)).getD []

/-- The write that a call ends with. -/
inductive RepairWrite where
  | leave
  | clear
  | save (record : InterruptedSessions)

def RepairWrite.apply : RepairWrite → RepairFile → RepairFile
  | .leave, file => file
  | .clear, _ => none
  | .save record, _ => some record

/-- `REPAIR_WINDOW_MS`. -/
def repairWindowMs : Nat := 600000

/-- The incoming record, with the keys already recorded behind its own. -/
def mergeForWrite (existing : RepairFile) (incoming : InterruptedSessions) :
    InterruptedSessions :=
  { incoming with
    sessions := existing.keys.foldl
      (fun merged key => if key ∈ merged then merged else merged ++ [key]) incoming.sessions }

/-- `record`, from what it loaded. -/
def recordFrom (loaded : RepairFile) (incoming : InterruptedSessions) : RepairWrite :=
  if incoming.sessions = [] then .leave else .save (mergeForWrite loaded incoming)

/-- `take_repairable`, from what it loaded. -/
def takeFrom (loaded : RepairFile) (nowMs myPid : Nat) (ownedKeys : List String) :
    RepairWrite × RepairVerdict :=
  match loaded with
  | none => (.leave, .nothing)
  | some record =>
      let ageMs := nowMs - record.recordedAtMs
      if ageMs > repairWindowMs then (.clear, .expired ageMs record.sessions)
      else if record.recordedByPid = myPid then (.leave, .nothing)
      else
        let mine := record.sessions.filter (fun key => key ∈ ownedKeys)
        if mine = [] then (.leave, .nothing)
        else
          let remaining := record.sessions.filter (fun key => key ∉ mine)
          let origin : RepairOrigin :=
            ⟨record.recordedAtMs, record.recordedByPid, record.recordedByVersion, record.reason⟩
          (if remaining = [] then .clear else .save { record with sessions := remaining },
            .repair origin mine)

/-- `requeue_unsubmitted`, from what it loaded. -/
def requeueFrom (loaded : RepairFile) (origin : RepairOrigin) (sessions : List String) :
    RepairWrite :=
  if sessions = [] then .leave
  else
    let recordedAtMs := match loaded with
      | some existing => max existing.recordedAtMs origin.recordedAtMs
      | none => origin.recordedAtMs
    .save (mergeForWrite loaded
      ⟨recordedAtMs, origin.recordedByPid, origin.recordedByVersion, origin.reason, sessions⟩)

/-! ## What each call writes -/

@[simp]
theorem RepairFile.keys_none : RepairFile.keys none = [] := rfl

@[simp]
theorem RepairFile.keys_some (record : InterruptedSessions) :
    RepairFile.keys (some record) = record.sessions := rfl

theorem mem_mergeForWrite {existing : RepairFile} {incoming : InterruptedSessions}
    {key : String} :
    key ∈ (mergeForWrite existing incoming).sessions ↔
      key ∈ incoming.sessions ∨ key ∈ existing.keys := by
  suffices merged : ∀ keys own : List String,
      (key ∈ keys.foldl (fun merged key => if key ∈ merged then merged else merged ++ [key]) own ↔
        key ∈ own ∨ key ∈ keys) from merged existing.keys incoming.sessions
  intro keys
  induction keys with
  | nil => simp
  | cons first rest inductionHypothesis =>
      intro own
      rw [List.foldl_cons, inductionHypothesis]
      by_cases present : first ∈ own
      · rw [if_pos present, List.mem_cons]
        constructor
        · rintro (inOwn | inRest)
          · exact .inl inOwn
          · exact .inr (.inr inRest)
        · rintro (inOwn | rfl | inRest)
          · exact .inl inOwn
          · exact .inl present
          · exact .inr inRest
      · rw [if_neg present, List.mem_append, List.mem_singleton, List.mem_cons, or_assoc]

/-- A take either returns nothing, and then writes nothing or clears an expired record, or
it returns the keys of a live record of another daemon that the caller owns, and writes
the record without them. -/
theorem takeFrom_cases (loaded : RepairFile) (nowMs myPid : Nat) (ownedKeys : List String) :
    let taken := takeFrom loaded nowMs myPid ownedKeys
    (taken.2.returned = [] ∧ (taken.1 = .leave ∨
        taken.1 = .clear ∧ ∃ record, loaded = some record ∧
          repairWindowMs < nowMs - record.recordedAtMs)) ∨
      ∃ record, loaded = some record ∧ record.recordedByPid ≠ myPid ∧
        taken.2.returned = record.sessions.filter (fun key => key ∈ ownedKeys) ∧
        ∀ file, (taken.1.apply file).keys =
            record.sessions.filter (fun key => key ∉ ownedKeys) ∧
          ∀ written, taken.1.apply file = some written →
            written.recordedByPid = record.recordedByPid ∧
              written.recordedAtMs = record.recordedAtMs := by
  rcases loaded with _ | record
  · exact .inl ⟨rfl, .inl rfl⟩
  · rw [takeFrom]
    by_cases late : nowMs - record.recordedAtMs > repairWindowMs
    · simp only [late, if_true]
      exact .inl ⟨rfl, .inr ⟨trivial, record, rfl, late⟩⟩
    · by_cases own : record.recordedByPid = myPid
      · simp only [late, own, if_true, if_false]
        exact .inl ⟨rfl, .inl trivial⟩
      · by_cases noneMine : record.sessions.filter (fun key => key ∈ ownedKeys) = []
        · simp only [late, own, noneMine, if_true, if_false]
          exact .inl ⟨rfl, .inl trivial⟩
        · simp only [late, own, noneMine, if_false]
          refine .inr ⟨record, rfl, own, rfl, ?_⟩
          intro file
          have isRemaining : record.sessions.filter (fun key =>
              key ∉ record.sessions.filter (fun key => key ∈ ownedKeys)) =
              record.sessions.filter (fun key => key ∉ ownedKeys) := by
            apply List.filter_congr
            intro key member
            simp [member]
          rw [isRemaining]
          by_cases noneLeft : record.sessions.filter (fun key => key ∉ ownedKeys) = []
          · rw [if_pos noneLeft]
            refine ⟨noneLeft.symm, ?_⟩
            intro written isWritten
            cases isWritten
          · rw [if_neg noneLeft]
            refine ⟨rfl, ?_⟩
            rintro written ⟨⟩
            exact ⟨rfl, rfl⟩

/-! ## Takes and requeues between daemons

Every daemon works on one call at a time, but the load of a call and its write are two
steps, and nothing keeps the other daemons from the file in between.  A key is available
while the file or a take under way has it; the calls spend each key at most once as long
as no write brings back a key that has left the file since it was loaded. -/

open Runs

/-- A call that has loaded the file and not yet written. -/
inductive PendingRepair where
  | take (loaded : RepairFile) (nowMs : Nat)
  | requeue (loaded : RepairFile) (origin : RepairOrigin) (sessions : List String)

structure RepairState where
  file : RepairFile
  pending : Nat → Option PendingRepair
  returned : List (List String)
  requeued : List (List String)

/-- One interruption is recorded and no daemon has looked at it. -/
def RepairState.initial (file : RepairFile) : RepairState := ⟨file, fun _ => none, [], []⟩

inductive RepairStep where
  | loadTake (daemon nowMs : Nat)
  | loadRequeue (daemon : Nat) (origin : RepairOrigin) (sessions : List String)
  | write (daemon : Nat) (succeeds : Bool)

section Daemons

-- The keys each daemon owns.
variable (owned : Nat → List String)

def PendingRepair.decided (daemon : Nat) : PendingRepair → RepairWrite × RepairVerdict
  | .take loaded nowMs => takeFrom loaded nowMs daemon (owned daemon)
  | .requeue loaded origin sessions => (requeueFrom loaded origin sessions, .nothing)

/-- The keys a call puts back, once it has written. -/
def PendingRepair.putBack : PendingRepair → List String
  | .take _ _ => []
  | .requeue _ _ sessions => sessions

/-- A daemon in a call loads for no other, and one in no call has nothing to write. -/
def repairStep (state : RepairState) : RepairStep → RepairState
  | .loadTake daemon nowMs =>
      match state.pending daemon with
      | none =>
          { state with
            pending := Function.update state.pending daemon (some (.take state.file nowMs)) }
      | some _ => state
  | .loadRequeue daemon origin sessions =>
      match state.pending daemon with
      | none =>
          { state with
            pending := Function.update state.pending daemon
              (some (.requeue state.file origin sessions)) }
      | some _ => state
  | .write daemon succeeds =>
      match state.pending daemon with
      | none => state
      | some call =>
          let decided := call.decided owned daemon
          { file := if succeeds then decided.1.apply state.file else state.file
            pending := Function.update state.pending daemon none
            returned := decided.2.returned :: state.returned
            requeued := if succeeds then call.putBack :: state.requeued else state.requeued }

/-- A write that spends keys succeeds, and no write brings back a key: all it puts in the
file is there already, or is put back for a repair that was not made. -/
def RepairState.BringsNothingBack (state : RepairState) : RepairStep → Prop
  | .write daemon succeeds => ∀ call, state.pending daemon = some call →
      ((call.decided owned daemon).2.returned ≠ [] → succeeds = true) ∧
        ∀ key ∈ ((call.decided owned daemon).1.apply state.file).keys,
          key ∈ state.file.keys ∨ key ∈ call.putBack
  | _ => True

end Daemons

/-- How many of the calls name the key. -/
def timesIn (key : String) (calls : List (List String)) : Nat := calls.countP (key ∈ ·)

theorem timesIn_cons (key : String) (call : List String) (calls : List (List String)) :
    timesIn key (call :: calls) = timesIn key calls + if key ∈ call then 1 else 0 := by
  simp [timesIn, List.countP_cons]

/-- Each key is returned at most once, and once more for each time it was put back. -/
def RepairState.AtMostOnce (state : RepairState) : Prop :=
  ∀ key, timesIn key state.returned ≤ 1 + timesIn key state.requeued

/-- The file has the key, or a take under way will return it. -/
def RepairState.Available (owned : Nat → List String) (state : RepairState) (key : String) : Prop :=
  key ∈ state.file.keys ∨ ∃ daemon call, state.pending daemon = some call ∧
    key ∈ (call.decided owned daemon).2.returned

/-- A key that can still be returned has been put back as often as it was returned. -/
def RepairState.Spends (owned : Nat → List String) (state : RepairState) : Prop :=
  ∀ key, timesIn key state.returned ≤ 1 + timesIn key state.requeued ∧
    (state.Available owned key → timesIn key state.returned ≤ timesIn key state.requeued)

variable {owned : Nat → List String}

/-! ### One step -/

theorem owned_of_returned {daemon : Nat} {call : PendingRepair} {key : String}
    (returned : key ∈ (call.decided owned daemon).2.returned) : key ∈ owned daemon := by
  cases call with
  | take loaded nowMs =>
      obtain ⟨noneReturned, _⟩ | ⟨record, _, _, isReturned, _⟩ :=
        takeFrom_cases loaded nowMs daemon (owned daemon)
      · rw [PendingRepair.decided, noneReturned] at returned
        cases returned
      · rw [PendingRepair.decided, isReturned] at returned
        exact of_decide_eq_true (List.mem_filter.mp returned).2
  | requeue loaded origin sessions => cases returned

/-- What a call returns it does not write. -/
theorem not_mem_written_of_returned {daemon : Nat} {call : PendingRepair} {key : String}
    (returned : key ∈ (call.decided owned daemon).2.returned) (file : RepairFile) :
    key ∉ ((call.decided owned daemon).1.apply file).keys := by
  have isOwned := owned_of_returned returned
  cases call with
  | take loaded nowMs =>
      obtain ⟨noneReturned, _⟩ | ⟨record, _, _, _, writes⟩ :=
        takeFrom_cases loaded nowMs daemon (owned daemon)
      · rw [PendingRepair.decided, noneReturned] at returned
        cases returned
      · rw [PendingRepair.decided, (writes file).1]
        intro written
        exact of_decide_eq_true (List.mem_filter.mp written).2 isOwned
  | requeue loaded origin sessions => cases returned

/-- A call that has just loaded the file returns only keys that are in it. -/
theorem mem_keys_of_take_returned {file : RepairFile} {daemon nowMs : Nat} {key : String}
    (returned : key ∈ ((PendingRepair.take file nowMs).decided owned daemon).2.returned) :
    key ∈ file.keys := by
  obtain ⟨noneReturned, _⟩ | ⟨record, isFile, _, isReturned, _⟩ :=
    takeFrom_cases file nowMs daemon (owned daemon)
  · rw [PendingRepair.decided, noneReturned] at returned
    cases returned
  · rw [PendingRepair.decided, isReturned] at returned
    rw [isFile]
    exact (List.mem_filter.mp returned).1

/-- A load makes no key available. -/
theorem available_of_load {state : RepairState} {daemon : Nat} {call : PendingRepair}
    (fresh : ∀ key ∈ (call.decided owned daemon).2.returned, key ∈ state.file.keys) {key : String}
    (available : ({ state with
      pending := Function.update state.pending daemon (some call) } : RepairState).Available
        owned key) :
    state.Available owned key := by
  rcases available with inFile | ⟨other, otherCall, isPending, returned⟩
  · exact .inl inFile
  · by_cases same : other = daemon
    · subst same
      simp only [Function.update_self, Option.some.injEq] at isPending
      subst isPending
      exact .inl (fresh key returned)
    · simp only [Function.update_of_ne same] at isPending
      exact .inr ⟨other, otherCall, isPending, returned⟩

/-- Once a call has written, the keys it returned are available to nobody, and the keys
it did not put back only where they were available before. -/
theorem available_of_write (disjoint : ∀ first second, first ≠ second →
      ∀ key ∈ owned first, key ∉ owned second) {state : RepairState} {daemon : Nat}
    {call : PendingRepair} (isPending : state.pending daemon = some call) {succeeds : Bool}
    (guarded : state.BringsNothingBack owned (.write daemon succeeds)) {key : String}
    (available : (repairStep owned state (.write daemon succeeds)).Available owned key) :
    key ∉ (call.decided owned daemon).2.returned ∧
      (state.Available owned key ∨ succeeds = true ∧ key ∈ call.putBack) := by
  obtain ⟨spent, kept⟩ := guarded call isPending
  simp only [RepairState.Available, repairStep, isPending] at available
  rcases available with inFile | ⟨other, otherCall, isOther, returned⟩
  · cases succeeds with
    | true =>
        simp only [if_true] at inFile
        refine ⟨fun returned => not_mem_written_of_returned returned state.file inFile, ?_⟩
        rcases kept key inFile with before | putBack
        · exact .inl (.inl before)
        · exact .inr ⟨rfl, putBack⟩
    | false =>
        simp only [Bool.false_eq_true, if_false] at inFile
        refine ⟨fun returned => ?_, .inl (.inl inFile)⟩
        cases spent (List.ne_nil_of_mem returned)
  · have different : other ≠ daemon := by
      rintro rfl
      simp at isOther
    rw [Function.update_of_ne different] at isOther
    refine ⟨fun mine => ?_, .inl (.inr ⟨other, otherCall, isOther, returned⟩)⟩
    exact disjoint other daemon different key (owned_of_returned returned) (owned_of_returned mine)

theorem repairStep_spends (disjoint : ∀ first second, first ≠ second →
      ∀ key ∈ owned first, key ∉ owned second) (state : RepairState) (action : RepairStep)
    (spends : state.Spends owned) (guarded : state.BringsNothingBack owned action) :
    (repairStep owned state action).Spends owned := by
  cases action with
  | loadTake daemon nowMs =>
      cases isPending : state.pending daemon with
      | some call => simpa [repairStep, isPending] using spends
      | none =>
          simp only [repairStep, isPending]
          intro key
          refine ⟨(spends key).1, fun available => (spends key).2 ?_⟩
          exact available_of_load (fun key => mem_keys_of_take_returned) available
  | loadRequeue daemon origin sessions =>
      cases isPending : state.pending daemon with
      | some call => simpa [repairStep, isPending] using spends
      | none =>
          simp only [repairStep, isPending]
          intro key
          refine ⟨(spends key).1, fun available => (spends key).2 ?_⟩
          exact available_of_load (fun key returned => by cases returned) available
  | write daemon succeeds =>
      cases isPending : state.pending daemon with
      | none => simpa [repairStep, isPending] using spends
      | some call =>
          intro key
          have isReturned : (repairStep owned state (.write daemon succeeds)).returned =
              (call.decided owned daemon).2.returned :: state.returned := by
            simp [repairStep, isPending]
          have isRequeued : timesIn key (repairStep owned state (.write daemon succeeds)).requeued =
              timesIn key state.requeued +
                if succeeds = true ∧ key ∈ call.putBack then 1 else 0 := by
            cases succeeds <;> simp [repairStep, isPending, timesIn_cons]
          rw [isReturned, isRequeued, timesIn_cons]
          constructor
          · by_cases returned : key ∈ (call.decided owned daemon).2.returned
            · have spent := (spends key).2 (.inr ⟨daemon, call, isPending, returned⟩)
              rw [if_pos returned]
              omega
            · have once := (spends key).1
              rw [if_neg returned]
              omega
          · intro available
            obtain ⟨notReturned, before | putBack⟩ :=
              available_of_write disjoint isPending guarded available
            · have spent := (spends key).2 before
              rw [if_neg notReturned]
              omega
            · have once := (spends key).1
              rw [if_neg notReturned, if_pos putBack]
              omega

/-! ### Whole runs -/

theorem RepairState.initial_spends (file : RepairFile) :
    (RepairState.initial file).Spends owned := by
  intro key
  simp [initial, timesIn]

/-- Between daemons that own different keys, each key of a recorded interruption is
returned at most once and once more for each requeue, in every run whose writes bring
nothing back. -/
theorem at_most_once_of_brings_nothing_back (owned : Nat → List String)
    (disjoint : ∀ first second, first ≠ second → ∀ key ∈ owned first, key ∉ owned second)
    (file : RepairFile) (actions : List RepairStep)
    (guarded : Guarded (repairStep owned) (RepairState.BringsNothingBack owned)
      (RepairState.initial file) actions) :
    Always (repairStep owned) RepairState.AtMostOnce (RepairState.initial file) actions :=
  always_of_guarded (repairStep_spends disjoint) (fun _ spends key => (spends key).1)
    (RepairState.initial_spends file) guarded

/-- Daemon 1 owns one of the two interrupted sessions and daemon 2 the other. -/
def twoOwners : Nat → List String
  | 1 => ["local://a"]
  | 2 => ["local://b"]
  | _ => []

theorem twoOwners_disjoint (first second : Nat) (different : first ≠ second) :
    ∀ key ∈ twoOwners first, key ∉ twoOwners second := by
  intro key inFirst inSecond
  unfold twoOwners at inFirst inSecond
  split at inFirst <;> split at inSecond <;> simp_all

def twoInterrupted : RepairFile :=
  some ⟨1000, 111, "1.2.3", "", ["local://a", "local://b"]⟩

/-- Call after call, with one key put back and taken again. -/
theorem at_most_once_of_requeue :
    Always (repairStep twoOwners) RepairState.AtMostOnce (RepairState.initial twoInterrupted)
      [.loadTake 1 2000, .write 1 true,
        .loadRequeue 1 ⟨1000, 111, "1.2.3", ""⟩ ["local://a"], .write 1 true,
        .loadTake 2 3000, .write 2 true, .loadTake 1 4000, .write 1 true] := by
  apply at_most_once_of_brings_nothing_back twoOwners twoOwners_disjoint
  refine ⟨trivial, ?_, trivial, ?_, trivial, ?_, trivial, ?_, trivial⟩ <;> rintro call ⟨⟩ <;> decide

/-- Both daemons load, then both write: the second write brings back the key that the
first one took, and it is taken again. -/
theorem not_at_most_once_of_overlap :
    (∀ first second, first ≠ second → ∀ key ∈ twoOwners first, key ∉ twoOwners second) ∧
      ¬ Always (repairStep twoOwners) RepairState.AtMostOnce (RepairState.initial twoInterrupted)
        [.loadTake 1 2000, .loadTake 2 2000, .write 1 true, .write 2 true, .loadTake 1 3000,
          .write 1 true] := by
  refine ⟨twoOwners_disjoint, ?_⟩
  intro always
  have twice := always.2.2.2.2.2.2 "local://a"
  exact absurd twice (by decide)

end Yggterm.HotRestart
