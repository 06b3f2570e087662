import Mathlib.Logic.Function.Basic
import Yggterm.Library.Runs

/-!
# The memo of the durable scan

`scan_all_durable_sessions` (`yggterm-core/src/startpage.rs`) keeps the rows it built, keyed by
path and checked by the stamp of the transcript, for as long as the stamp of the title store
is the one they were built under.  Scans run side by side in one process, and transcripts
and titles are written behind their back.

How a row is built from what is read is a parameter here: the memo does not depend on it.
-/

namespace Yggterm.ScanMemo

universe u

structure Transcript where
  modified : Nat
  bytes : List UInt8
  deriving DecidableEq

/-- The time of the last change and the length. -/
abbrev DurableFileStamp := Nat × Nat

def durableFileStamp (file : Option Transcript) : Option DurableFileStamp :=
  file.map fun transcript => (transcript.modified, transcript.bytes.length)

variable (Path Titles Row ScanId : Type)

structure DurableScanMemo where
  generation : Option Nat
  rows : Path → Option (DurableFileStamp × Row)

/-- Where a scan is with the file it is at. -/
inductive Stage where
  | idle
  | stamped (path : Path) (stamp : Option DurableFileStamp)
  | missed (path : Path) (stamp : Option DurableFileStamp)
  | entered (path : Path) (stamp : Option DurableFileStamp) (entry : Option Transcript)
  | titled (path : Path) (stamp : Option DurableFileStamp) (entry : Option Transcript)
      (titles : Titles)
  | built (path : Path) (stamp : Option DurableFileStamp) (row : Row)

/-- A scan and what it has found.  Whether nothing was written since it started is kept for the
proofs. -/
structure Scan where
  generation : Nat
  cleared : Bool
  seen : List Path
  stage : Stage Path Titles Row
  rows : List (Path × Row)
  finished : Bool
  undisturbed : Bool

/-- The transcripts, and the title store with its stamp, which every write changes. -/
structure Disk where
  transcripts : Path → Option Transcript
  titles : Titles
  generation : Nat

structure State where
  disk : Disk Path Titles
  memo : DurableScanMemo Path Row
  scans : ScanId → Option (Scan Path Titles Row)

inductive Action where
  | append (path : Path) (modified : Nat) (bytes : List UInt8)
  | writeTitles (titles : Titles)
  | invalidate
  | start (id : ScanId)
  | clear (id : ScanId)
  | skip (id : ScanId) (path : Path)
  | visit (id : ScanId) (path : Path)
  | lookUp (id : ScanId)
  | readTranscript (id : ScanId)
  | readTitles (id : ScanId)
  | readContext (id : ScanId)
  | insert (id : ScanId)
  | finish (id : ScanId)

variable {Path Titles Row ScanId}

/-- What a row is built from: the transcript, the titles, and the tail of the transcript, which
is read once more. -/
abbrev RowBuilder (Path Titles Row : Type) :=
  Path → Option Transcript → Titles → Option Transcript → Option Row

namespace DurableScanMemo

def empty : DurableScanMemo Path Row := ⟨none, fun _ => none⟩

/-- The rows are dropped when they were built under another stamp of the title store. -/
def enter (generation : Nat) (memo : DurableScanMemo Path Row) : DurableScanMemo Path Row :=
  if memo.generation ≠ some generation then ⟨some generation, fun _ => none⟩ else memo

variable [DecidableEq Path]

def insert (path : Path) (stamp : Option DurableFileStamp) (row : Row)
    (memo : DurableScanMemo Path Row) : DurableScanMemo Path Row :=
  match stamp with
  | none => memo
  | some stamp => { memo with rows := Function.update memo.rows path (some (stamp, row)) }

/-- What was not met is forgotten. -/
def retain (seen : List Path) (memo : DurableScanMemo Path Row) : DurableScanMemo Path Row :=
  { memo with rows := fun path => if path ∈ seen then memo.rows path else none }

/-- The row of a file with this stamp. -/
def find? (path : Path) (stamp : Option DurableFileStamp) (memo : DurableScanMemo Path Row) :
    Option Row :=
  match stamp, memo.rows path with
  | some stamp, some (cached, row) => if cached = stamp then some row else none
  | _, _ => none

end DurableScanMemo

namespace Disk

/-- The row of a file, built without the memo. -/
def rowNow (buildRow : RowBuilder Path Titles Row) (disk : Disk Path Titles) (path : Path) :
    Option Row :=
  buildRow path (disk.transcripts path) disk.titles (disk.transcripts path)

def stampNow (disk : Disk Path Titles) (path : Path) : Option DurableFileStamp :=
  durableFileStamp (disk.transcripts path)

def append [DecidableEq Path] (disk : Disk Path Titles) (path : Path) (modified : Nat)
    (bytes : List UInt8) : Disk Path Titles :=
  let before := ((disk.transcripts path).map Transcript.bytes).getD []
  { disk with
    transcripts := Function.update disk.transcripts path (some ⟨modified, before ++ bytes⟩) }

def writeTitles (disk : Disk Path Titles) (titles : Titles) : Disk Path Titles :=
  { disk with titles, generation := disk.generation + 1 }

end Disk

namespace State

variable [DecidableEq Path] [DecidableEq ScanId] (buildRow : RowBuilder Path Titles Row)

/-- Something was written: every scan that has started is disturbed. -/
def write (state : State Path Titles Row ScanId) (disk : Disk Path Titles) :
    State Path Titles Row ScanId :=
  { state with
    disk
    scans := fun id => (state.scans id).map fun scan => { scan with undisturbed := false } }

/-- A step of a scan: what becomes of the memo and of the scan. -/
def stepScan (disk : Disk Path Titles) (memo : DurableScanMemo Path Row)
    (scan : Scan Path Titles Row) :
    Action Path Titles ScanId → Option (DurableScanMemo Path Row × Scan Path Titles Row)
  | .clear _ =>
      if scan.cleared then none
      else some (memo.enter scan.generation, { scan with cleared := true })
  | .skip _ path =>
      match scan.stage with
      | .idle =>
          if scan.cleared ∧ scan.finished = false then
            some (memo, { scan with seen := path :: scan.seen })
          else none
      | _ => none
  | .visit _ path =>
      match scan.stage with
      | .idle =>
          if scan.cleared ∧ scan.finished = false ∧ path ∉ scan.seen then
            some (memo, { scan with
              seen := path :: scan.seen, stage := .stamped path (disk.stampNow path) })
          else none
      | _ => none
  | .lookUp _ =>
      match scan.stage with
      | .stamped path stamp =>
          match memo.find? path stamp with
          | some row =>
              some (memo, { scan with stage := .idle, rows := scan.rows ++ [(path, row)] })
          | none => some (memo, { scan with stage := .missed path stamp })
      | _ => none
  | .readTranscript _ =>
      match scan.stage with
      | .missed path stamp =>
          some (memo, { scan with stage := .entered path stamp (disk.transcripts path) })
      | _ => none
  | .readTitles _ =>
      match scan.stage with
      | .entered path stamp entry =>
          some (memo, { scan with stage := .titled path stamp entry disk.titles })
      | _ => none
  | .readContext _ =>
      match scan.stage with
      | .titled path stamp entry titles =>
          match buildRow path entry titles (disk.transcripts path) with
          | some row => some (memo, { scan with stage := .built path stamp row })
          | none => some (memo, { scan with stage := .idle })
      | _ => none
  | .insert _ =>
      match scan.stage with
      | .built path stamp row =>
          some (memo.insert path stamp row,
            { scan with stage := .idle, rows := scan.rows ++ [(path, row)] })
      | _ => none
  | .finish _ =>
      match scan.stage with
      | .idle =>
          if scan.cleared ∧ scan.finished = false then
            some (memo.retain scan.seen, { scan with finished := true })
          else none
      | _ => none
  | _ => none

/-- A step of the scan `id`; a step that is not possible changes nothing. -/
def advance (state : State Path Titles Row ScanId) (id : ScanId)
    (action : Action Path Titles ScanId) : State Path Titles Row ScanId :=
  match (state.scans id).bind fun scan => stepScan buildRow state.disk state.memo scan action with
  | none => state
  | some (memo, scan) =>
      { state with memo, scans := Function.update state.scans id (some scan) }

def step (state : State Path Titles Row ScanId) (action : Action Path Titles ScanId) :
    State Path Titles Row ScanId :=
  match action with
  | .append path modified bytes =>
      if bytes = [] then state else state.write (state.disk.append path modified bytes)
  | .writeTitles titles => state.write (state.disk.writeTitles titles)
  | .invalidate => { state with memo := .empty }
  | .start id =>
      match state.scans id with
      | some _ => state
      | none =>
          let scan := ⟨state.disk.generation, false, [], .idle, [], false, true⟩
          { state with scans := Function.update state.scans id (some scan) }
  | .clear id | .skip id _ | .visit id _ | .lookUp id | .readTranscript id | .readTitles id
  | .readContext id | .insert id | .finish id => state.advance buildRow id action

/-- The process before its first scan. -/
def initial (disk : Disk Path Titles) : State Path Titles Row ScanId :=
  ⟨disk, .empty, fun _ => none⟩

end State

end Yggterm.ScanMemo
