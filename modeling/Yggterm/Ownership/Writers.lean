import Mathlib.Data.List.Induction
import Mathlib.Data.List.Nodup
import Yggterm.Library.Runs
import Yggterm.Ownership.Lookup

/-!
# Writers keep to their own records

Daemons write the ledger in turn.  Each speaks only for itself: what another daemon
witnessed stays, and is there as often as its witness wrote it.
-/

namespace Yggterm.Ownership

open Runs

/-- The records of one call; their writer is their witness. -/
structure Statement where
  writerPid : Nat
  records : List OwnershipRecord
  own : ∀ record ∈ records, record.writtenByPid = writerPid

/-- What a daemon says at the end of a handoff. -/
def Statement.handoff (identity : List (String × SessionKind × SessionId))
    (adopted : List (String × Nat × Nat)) (nowMs writerPid : Nat) (fromVersion : String) :
    Statement where
  writerPid := writerPid
  records := handoffOwnershipRecords identity adopted nowMs writerPid fromVersion
  own := by
    intro record member
    obtain ⟨row, _, found⟩ := List.mem_filterMap.mp member
    obtain ⟨owner, _, rfl⟩ := Option.map_eq_some_iff.mp found
    rfl

/-- What a daemon says when it exits with rows of its own. -/
def Statement.dying (identity : List (String × SessionKind × SessionId × List String))
    (nowMs writerPid : Nat) (fromVersion : String) : Statement where
  writerPid := writerPid
  records := diedWithMeRecords identity nowMs writerPid fromVersion
  own := by
    intro record member
    obtain ⟨row, _, rfl⟩ := List.mem_map.mp member
    rfl

inductive Call where
  | recordHandoff (statement : Statement)
  | writeRecords (statement : Statement)
  | saveExitMerge (statement : Statement)
  | clearSatisfied (kind : SessionKind) (sessionId : SessionId)

def Call.statement : Call → Option Statement
  | .recordHandoff statement => some statement
  | .writeRecords statement => some statement
  | .saveExitMerge statement => some statement
  | .clearSatisfied _ _ => none

def step (encoder : Encoder) (ledger : Ledger) : Call → Ledger
  | .recordHandoff statement =>
      Ownership.recordHandoff encoder ledger statement.writerPid statement.records
  | .writeRecords statement =>
      Ownership.writeRecords encoder ledger statement.writerPid statement.records
  | .saveExitMerge statement =>
      Ownership.saveExitMerge encoder ledger statement.records statement.writerPid
  | .clearSatisfied kind sessionId => Ownership.clearSatisfied encoder ledger kind sessionId

/-- The call is one of the record's own writer, or clears the record's key. -/
def Call.Concerns (call : Call) (record : OwnershipRecord) : Prop :=
  match call with
  | .recordHandoff statement => statement.writerPid = record.writtenByPid
  | .writeRecords statement => statement.writerPid = record.writtenByPid
  | .saveExitMerge statement => statement.writerPid = record.writtenByPid
  | .clearSatisfied kind sessionId => record.key = (kind, sessionId)

section

variable (encoder : Encoder)

/-! ## One call -/

theorem Statement.count_eq_zero {statement : Statement} {record : OwnershipRecord}
    (other : statement.writerPid ≠ record.writtenByPid) : statement.records.count record = 0 := by
  apply List.count_eq_zero_of_not_mem
  intro member
  exact other (statement.own record member).symm

theorem count_filter_eq (keeps : OwnershipRecord → Bool) (record : OwnershipRecord)
    (ledger : Ledger) :
    (ledger.filter keeps).count record = if keeps record then ledger.count record else 0 := by
  split
  · next kept => exact List.count_filter kept
  · next dropped =>
      apply List.count_eq_zero_of_not_mem
      intro member
      exact dropped (List.mem_filter.mp member).2

/-- Writing replaces the writer's own records. -/
theorem count_writeRecords (ledger : Ledger) (statement : Statement) (record : OwnershipRecord) :
    (writeRecords encoder ledger statement.writerPid statement.records).count record =
      if statement.writerPid = record.writtenByPid then statement.records.count record
      else (load encoder ledger).count record := by
  rw [writeRecords, List.count_append, count_filter_eq]
  by_cases own : statement.writerPid = record.writtenByPid
  · rw [if_neg (by simp [own]), if_pos own, Nat.zero_add]
  · have kept : decide (record.writtenByPid ≠ statement.writerPid) = true :=
      decide_eq_true fun same => own same.symm
    rw [if_pos kept, if_neg own, Statement.count_eq_zero own, Nat.add_zero]

/-- At exit only the writer's records for the dying sessions are replaced. -/
theorem count_saveExitMerge (ledger : Ledger) (statement : Statement) (record : OwnershipRecord) :
    (saveExitMerge encoder ledger statement.records statement.writerPid).count record =
      if statement.writerPid = record.writtenByPid ∧
          record.key ∈ statement.records.map OwnershipRecord.key then
        statement.records.count record
      else (load encoder ledger).count record := by
  rw [saveExitMerge, mergeExitRecords, List.count_append, count_filter_eq]
  simp only [Bool.or_eq_true, decide_eq_true_eq]
  by_cases replaced : statement.writerPid = record.writtenByPid ∧
      record.key ∈ statement.records.map OwnershipRecord.key
  · have dropped : ¬ (record.writtenByPid ≠ statement.writerPid ∨
        record.key ∉ statement.records.map OwnershipRecord.key) := by
      intro kept
      rcases kept with other | survives
      · exact other replaced.1.symm
      · exact survives replaced.2
    rw [if_neg dropped, if_pos replaced, Nat.zero_add]
  · have kept : record.writtenByPid ≠ statement.writerPid ∨
        record.key ∉ statement.records.map OwnershipRecord.key := by
      by_cases own : statement.writerPid = record.writtenByPid
      · exact Or.inr fun dies => replaced ⟨own, dies⟩
      · exact Or.inl fun same => own same.symm
    have unsaid : statement.records.count record = 0 := by
      apply List.count_eq_zero_of_not_mem
      intro member
      exact replaced ⟨(statement.own record member).symm, List.mem_map_of_mem member⟩
    rw [if_pos kept, if_neg replaced, unsaid, Nat.add_zero]

theorem count_clearSatisfied (ledger : Ledger) (kind : SessionKind) (sessionId : SessionId)
    (record : OwnershipRecord) :
    (clearSatisfied encoder ledger kind sessionId).count record =
      if record.key = (kind, sessionId) then 0 else (load encoder ledger).count record := by
  rw [clearSatisfied, count_filter_eq]
  by_cases cleared : record.key = (kind, sessionId) <;> simp [cleared]

/-- A call that does not concern a record leaves it as often as the file read had it. -/
theorem count_step_of_not_concerns (ledger : Ledger) {call : Call} {record : OwnershipRecord}
    (unconcerned : ¬ call.Concerns record) :
    (step encoder ledger call).count record = (load encoder ledger).count record := by
  cases call with
  | recordHandoff statement =>
      exact (count_writeRecords encoder ledger statement record).trans (if_neg unconcerned)
  | writeRecords statement =>
      exact (count_writeRecords encoder ledger statement record).trans (if_neg unconcerned)
  | saveExitMerge statement =>
      apply (count_saveExitMerge encoder ledger statement record).trans
      exact if_neg fun replaced => unconcerned replaced.1
  | clearSatisfied kind sessionId =>
      exact (count_clearSatisfied encoder ledger kind sessionId record).trans (if_neg unconcerned)

theorem count_load_cases (ledger : Ledger) (record : OwnershipRecord) :
    (load encoder ledger).count record = 0 ∨
      (load encoder ledger).count record = ledger.count record := by
  rw [load]
  split
  · exact Or.inl rfl
  · exact Or.inr rfl

/-- A call that concerns a record leaves it as often as its writer just said, or as the
file read had it, or not at all. -/
theorem count_step_of_concerns (ledger : Ledger) {call : Call} {record : OwnershipRecord}
    (concerned : call.Concerns record) :
    (step encoder ledger call).count record = 0 ∨
      (step encoder ledger call).count record = (load encoder ledger).count record ∨
      ∃ statement, call.statement = some statement ∧ statement.writerPid = record.writtenByPid ∧
        (step encoder ledger call).count record = statement.records.count record := by
  cases call with
  | recordHandoff statement =>
      have said := (count_writeRecords encoder ledger statement record).trans (if_pos concerned)
      exact Or.inr (Or.inr ⟨statement, rfl, concerned, said⟩)
  | writeRecords statement =>
      have said := (count_writeRecords encoder ledger statement record).trans (if_pos concerned)
      exact Or.inr (Or.inr ⟨statement, rfl, concerned, said⟩)
  | saveExitMerge statement =>
      have counted := count_saveExitMerge encoder ledger statement record
      split at counted
      · exact Or.inr (Or.inr ⟨statement, rfl, concerned, counted⟩)
      · exact Or.inr (Or.inl counted)
  | clearSatisfied kind sessionId =>
      have cleared :=
        (count_clearSatisfied encoder ledger kind sessionId record).trans (if_pos concerned)
      exact Or.inl cleared

/-! ## Runs -/

/-- A record in the ledger was written by one of the calls, by its own witness, and is
there as often as that call had it. -/
def Vouched (calls : List Call) (ledger : Ledger) : Prop :=
  ∀ record ∈ ledger, ∃ call ∈ calls, ∃ statement, call.statement = some statement ∧
    statement.writerPid = record.writtenByPid ∧
      ledger.count record = statement.records.count record

theorem Vouched.step {calls : List Call} {ledger : Ledger} (vouched : Vouched calls ledger)
    (call : Call) : Vouched (calls ++ [call]) (step encoder ledger call) := by
  intro record member
  have present : (Ownership.step encoder ledger call).count record ≠ 0 :=
    Nat.ne_of_gt (List.count_pos_iff.mpr member)
  have ofBefore (same : (Ownership.step encoder ledger call).count record =
      (load encoder ledger).count record) :
      ∃ earlier ∈ calls ++ [call], ∃ statement, earlier.statement = some statement ∧
        statement.writerPid = record.writtenByPid ∧
          (Ownership.step encoder ledger call).count record = statement.records.count record := by
    have sameBefore : (Ownership.step encoder ledger call).count record = ledger.count record :=
      ((count_load_cases encoder ledger record).resolve_left (same ▸ present)) ▸ same
    have wasThere : record ∈ ledger :=
      List.count_pos_iff.mp (Nat.pos_of_ne_zero (sameBefore ▸ present))
    obtain ⟨earlier, inCalls, statement, isStatement, isWriter, counted⟩ := vouched record wasThere
    exact ⟨earlier, List.mem_append_left _ inCalls, statement, isStatement, isWriter,
      sameBefore.trans counted⟩
  by_cases concerned : call.Concerns record
  · rcases count_step_of_concerns encoder ledger concerned with
      gone | same | ⟨statement, isStatement, isWriter, said⟩
    · exact absurd gone present
    · exact ofBefore same
    · exact ⟨call, by simp, statement, isStatement, isWriter, said⟩
  · exact ofBefore (count_step_of_not_concerns encoder ledger concerned)

theorem vouched_run (calls : List Call) : Vouched calls (run (step encoder) [] calls) := by
  induction calls using List.reverseRecOn with
  | nil => intro record member; simp at member
  | append_singleton calls call inductionHypothesis =>
      rw [run, List.foldl_append]
      exact inductionHypothesis.step encoder call

/-- Over a run a record stays as often as it was, unless some call concerned it, or met
a file over the cap. -/
theorem count_run_cases (ledger : Ledger) (calls : List Call) (record : OwnershipRecord) :
    (run (step encoder) ledger calls).count record = ledger.count record ∨
      ∃ middle call rest, calls = middle ++ call :: rest ∧
        (call.Concerns record ∨
          ledgerMaxBytes < encoder.size (run (step encoder) ledger middle)) := by
  induction calls generalizing ledger with
  | nil => exact Or.inl rfl
  | cons call rest inductionHypothesis =>
      by_cases excused : call.Concerns record ∨ ledgerMaxBytes < encoder.size ledger
      · exact Or.inr ⟨[], call, rest, rfl, excused⟩
      · obtain ⟨unconcerned, fits⟩ := not_or.mp excused
        have kept : (step encoder ledger call).count record = ledger.count record := by
          rw [count_step_of_not_concerns encoder ledger unconcerned,
            load_of_le (Nat.le_of_not_lt fits)]
        rcases inductionHypothesis (step encoder ledger call) with
          same | ⟨middle, later, others, isRest, laterExcused⟩
        · exact Or.inl (same.trans kept)
        · refine Or.inr ⟨call :: middle, later, others, ?_, laterExcused⟩
          rw [isRest]
          rfl

end

end Yggterm.Ownership
