import Mathlib.Algebra.Order.BigOperators.Group.List
import Mathlib.Algebra.Order.Group.Nat
import Mathlib.Algebra.Ring.Nat

/-!
# The ownership ledger

At a handoff a daemon writes, for each row it owned, who owns it now
(`yggterm-server/src/ownership_ledger.rs`).  A resume asks the ledger about one
session; records that are no longer true are pruned while it is read.
-/

namespace Yggterm.Ownership

inductive SessionKind where
  | codex
  | codexLiteLlm
  | claudeCode
  | pi
  | openCode
  | qwenCode
  | kimi
  | muse
  | antigravity
  | grokBuild
  | zcodeTui
  | devin
  | mimoCode
  | shell
  | sshShell
  | document
  deriving DecidableEq

abbrev SessionId := List Char

inductive OwnershipDisposition where
  | adopted (byPid byStartTime : Nat)
  | diedWithMe (storeSessionId : SessionId) (resumeArgv : List String)
  deriving DecidableEq

structure OwnershipRecord where
  kind : SessionKind
  sessionId : SessionId
  runtimeKey : String
  disposition : OwnershipDisposition
  writtenAtMs : Nat
  writtenByPid : Nat
  fromVersion : String
  deriving DecidableEq

/-- What a resume asks for. -/
def OwnershipRecord.key (record : OwnershipRecord) : SessionKind × SessionId :=
  (record.kind, record.sessionId)

inductive LedgerAnswer where
  | adopted (byPid : Nat)
  | diedWithMe (storeSessionId : SessionId) (resumeArgv : List String)
  | noAnswer
  deriving DecidableEq

/-! ## Which records are true -/

/-- The state and the start time in `/proc/<pid>/stat`. -/
structure ProcessStat where
  state : Char
  startTime : Nat

abbrev ProcessTable := Nat → Option ProcessStat

/-- There is such a process, and it is not a zombie. -/
def processIsAlive (table : ProcessTable) (pid : Nat) : Bool :=
  match table pid with
  | some stat => stat.state ≠ 'Z'
  | none => false

def adoptedRecordTtlMs : Nat := 60 * 60 * 1000

def diedWithMeTtlMs : Nat := 5 * 60 * 1000

def recordIsStillTrue (table : ProcessTable) (now : Nat) (record : OwnershipRecord) : Bool :=
  match record.disposition with
  | .adopted byPid _ =>
      now - record.writtenAtMs ≤ adoptedRecordTtlMs && processIsAlive table byPid
  | .diedWithMe _ _ => now - record.writtenAtMs ≤ diedWithMeTtlMs

/-! ## The file

A ledger is the list of records its file holds.  How long the file gets is up to the
JSON encoder, of which only this is used: an array is not longer than one it is a
part of, and contains the session ids as text. -/

structure Encoder where
  size : List OwnershipRecord → Nat
  size_nil : size [] = 2
  size_le_of_sublist : ∀ {records others}, List.Sublist records others → size records ≤ size others
  length_le_size : ∀ {record records}, record ∈ records → record.sessionId.length ≤ size records

/-! The pretty printer of `serde_json`, for texts without characters to escape. -/

def SessionKind.slug : SessionKind → String
  | .codex => "codex"
  | .codexLiteLlm => "codex_lite_llm"
  | .claudeCode => "claude_code"
  | .pi => "pi"
  | .openCode => "open_code"
  | .qwenCode => "qwen_code"
  | .kimi => "kimi"
  | .muse => "muse"
  | .antigravity => "antigravity"
  | .grokBuild => "grok_build"
  | .zcodeTui => "zcode_tui"
  | .devin => "devin"
  | .mimoCode => "mimo_code"
  | .shell => "shell"
  | .sshShell => "ssh_shell"
  | .document => "document"

/-- Members on lines of their own, with commas and newlines between them. -/
def blockSize (indent : Nat) (members : List Nat) : Nat :=
  if members = [] then 2 else members.sum + 2 * members.length + indent + 2

def memberSize (indent : Nat) (name : String) (value : Nat) : Nat :=
  indent + name.length + 4 + value

def numberSize (value : Nat) : Nat := (Nat.toDigits 10 value).length

def OwnershipDisposition.encodedSize : OwnershipDisposition → Nat
  | .adopted byPid byStartTime =>
      blockSize 4
        [memberSize 6 "type" 9, memberSize 6 "by_pid" (numberSize byPid),
          memberSize 6 "by_start_time" (numberSize byStartTime)]
  | .diedWithMe storeSessionId resumeArgv =>
      blockSize 4
        [memberSize 6 "type" 14, memberSize 6 "store_session_id" (storeSessionId.length + 2),
          memberSize 6 "resume_argv" (blockSize 6 (resumeArgv.map fun text => text.length + 10))]

def OwnershipRecord.encodedSize (record : OwnershipRecord) : Nat :=
  2 + blockSize 2
    [memberSize 4 "kind" (record.kind.slug.length + 2),
      memberSize 4 "session_id" (record.sessionId.length + 2),
      memberSize 4 "runtime_key" (record.runtimeKey.length + 2),
      memberSize 4 "disposition" record.disposition.encodedSize,
      memberSize 4 "written_at_ms" (numberSize record.writtenAtMs),
      memberSize 4 "written_by_pid" (numberSize record.writtenByPid),
      memberSize 4 "from_version" (record.fromVersion.length + 2)]

theorem OwnershipRecord.length_le_encodedSize (record : OwnershipRecord) :
    record.sessionId.length ≤ record.encodedSize := by
  simp only [encodedSize, blockSize, memberSize, List.sum_cons]
  simp
  omega

theorem blockSize_le_of_sublist (indent : Nat) {members others : List Nat}
    (part : List.Sublist members others) : blockSize indent members ≤ blockSize indent others := by
  have sums := part.sum_le_sum fun _ _ => Nat.zero_le _
  have lengths := part.length_le
  by_cases empty : others = []
  · subst empty
    rw [List.sublist_nil.mp part]
  · rw [blockSize, blockSize, if_neg empty]
    split <;> omega

def prettyEncoder : Encoder where
  size records := blockSize 0 (records.map OwnershipRecord.encodedSize)
  size_nil := rfl
  size_le_of_sublist := fun part => blockSize_le_of_sublist 0 (part.map _)
  length_le_size := by
    intro record records member
    have inside : [record.encodedSize].Sublist (records.map OwnershipRecord.encodedSize) :=
      List.singleton_sublist.mpr (List.mem_map_of_mem member)
    have whole := blockSize_le_of_sublist 0 inside
    have alone : record.encodedSize ≤ blockSize 0 [record.encodedSize] := by
      simp [blockSize]
      omega
    exact record.length_le_encodedSize.trans (alone.trans whole)

abbrev Ledger := List OwnershipRecord

def ledgerMaxBytes : Nat := 4 * 1024 * 1024

/-- `load`, with the ledger it leaves: a file over the cap is moved aside unread. -/
def load (encoder : Encoder) (ledger : Ledger) : Ledger :=
  if ledgerMaxBytes < encoder.size ledger then [] else ledger

/-! ## Writers -/

def writeRecords (encoder : Encoder) (ledger : Ledger) (writerPid : Nat)
    (records : List OwnershipRecord) : Ledger :=
  (load encoder ledger).filter (fun record => record.writtenByPid ≠ writerPid) ++ records

def recordHandoff (encoder : Encoder) (ledger : Ledger) (writerPid : Nat)
    (records : List OwnershipRecord) : Ledger :=
  writeRecords encoder ledger writerPid records

def mergeExitRecords (existing dying : List OwnershipRecord) (writerPid : Nat) :
    List OwnershipRecord :=
  existing.filter (fun record =>
    record.writtenByPid ≠ writerPid || record.key ∉ dying.map OwnershipRecord.key) ++ dying

def saveExitMerge (encoder : Encoder) (ledger : Ledger) (dying : List OwnershipRecord)
    (writerPid : Nat) : Ledger :=
  mergeExitRecords (load encoder ledger) dying writerPid

def clearSatisfied (encoder : Encoder) (ledger : Ledger) (kind : SessionKind)
    (sessionId : SessionId) : Ledger :=
  (load encoder ledger).filter fun record => record.key ≠ (kind, sessionId)

/-- One record for each adopted row that has an identity. -/
def handoffOwnershipRecords (identity : List (String × SessionKind × SessionId))
    (adopted : List (String × Nat × Nat)) (nowMs writerPid : Nat) (fromVersion : String) :
    List OwnershipRecord :=
  adopted.filterMap fun (runtimeKey, byPid, byStartTime) =>
    (identity.find? fun row => row.1 = runtimeKey).map fun (_, kind, sessionId) =>
      { kind
        sessionId
        runtimeKey
        disposition := .adopted byPid byStartTime
        writtenAtMs := nowMs
        writtenByPid := writerPid
        fromVersion }

def diedWithMeRecords (identity : List (String × SessionKind × SessionId × List String))
    (nowMs writerPid : Nat) (fromVersion : String) : List OwnershipRecord :=
  identity.map fun (runtimeKey, kind, sessionId, resumeArgv) =>
    { kind
      sessionId
      runtimeKey
      disposition := .diedWithMe sessionId resumeArgv
      writtenAtMs := nowMs
      writtenByPid := writerPid
      fromVersion }

/-! ## Lookup -/

/-- Of two records for the asked key the one already held stays unless the other is newer. -/
def newer (current : Option OwnershipRecord) (record : OwnershipRecord) :
    Option OwnershipRecord :=
  match current with
  | some held => if record.writtenAtMs ≤ held.writtenAtMs then some held else some record
  | none => some record

/-- The loop of `lookup`. -/
def newestRecord (table : ProcessTable) (now : Nat) (key : SessionKind × SessionId)
    (records : List OwnershipRecord) : Option OwnershipRecord :=
  records.foldl
    (fun newest record =>
      if recordIsStillTrue table now record && record.key = key then newer newest record
      else newest)
    none

def answerOf : Option OwnershipRecord → LedgerAnswer
  | none => .noAnswer
  | some record =>
      match record.disposition with
      | .adopted byPid _ => .adopted byPid
      | .diedWithMe storeSessionId resumeArgv => .diedWithMe storeSessionId resumeArgv

def prune (encoder : Encoder) (ledger : Ledger) (stale : List OwnershipRecord) : Ledger :=
  (load encoder ledger).filter fun record => record.key ∉ stale.map OwnershipRecord.key

def lookup (encoder : Encoder) (table : ProcessTable) (now : Nat) (ledger : Ledger)
    (kind : SessionKind) (sessionId : SessionId) : Ledger × LedgerAnswer :=
  let records := load encoder ledger
  let stale := records.filter fun record => ¬ recordIsStillTrue table now record
  let answer := answerOf (newestRecord table now (kind, sessionId) records)
  (if stale = [] then records else prune encoder records stale, answer)

end Yggterm.Ownership
