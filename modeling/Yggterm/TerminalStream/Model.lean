import Mathlib.Data.List.Basic

/-!
# The output stream of a PTY runtime

The reader thread numbers what the child writes, feeds it to the vt100 screen and
keeps the last chunks in a ring (`yggterm-server/src/terminal.rs`).  Commits run
under the chunk lock, but sequence numbers, the injected-ring floor and the screen
are seen without it, so a commit is a program of small operations here.

The screen is third-party code; it stands as the list of payloads it processed.
-/

namespace Yggterm.TerminalStream

/-- `TerminalChunk` -/
structure Chunk where
  seq : Nat
  data : String
  deriving DecidableEq

def maxChunks : Nat := 512

def maxBufferBytes : Nat := 16 * 1024 * 1024

def idleTrimMaxChunks : Nat := 64

def idleTrimMaxBytes : Nat := 128 * 1024

/-- The ring and its byte count after dropping old chunks until both limits hold.
An empty ring over its byte limit resets the count. -/
def trimChunkBuffer (chunkLimit byteLimit : Nat) : List Chunk → Nat → List Chunk × Nat
  | [], retained => if byteLimit < retained then ([], 0) else ([], retained)
  | chunk :: rest, retained =>
      if chunkLimit < rest.length + 1 ∨ byteLimit < retained then
        trimChunkBuffer chunkLimit byteLimit rest (retained - chunk.data.utf8ByteSize)
      else (chunk :: rest, retained)

/-- `cap_injected_ring_floor`; the compare-and-swap loop ends with the lower of
the two, zero counting as none. -/
def capInjectedRingFloor (floor seq : Nat) : Nat :=
  if floor = 0 ∨ seq < floor then seq else floor

def cappedSeedStamp (outputSeq injectedFloor : Nat) : Nat :=
  if 0 < injectedFloor then min outputSeq (injectedFloor - 1) else outputSeq

/-! ## Threads -/

/-- What a holder of the chunk lock does, one operation at a time.  `mint` takes
the next sequence number, `push` appends the minted chunk and trims. -/
inductive Op where
  | process (data : String)
  | mint (data : String) (injected : Bool)
  | capFloor
  | push
  deriving DecidableEq

/-- A translated contract line: numbered, capped below, pushed. -/
def injectLine (line : String) : List Op :=
  [.mint s!"{line}\r\n" true, .capFloor, .push]

/-- The reader's commit of a payload, with the contract lines its error hits were
translated to. -/
def commitProgram (data : String) (lines : List String) : List Op :=
  .process data :: (lines.flatMap injectLine ++ [.mint data false, .push])

/-- `seed_snapshot` -/
def seedProgram (data : String) : List Op :=
  [.process data, .mint data false, .push]

/-- A critical section in progress: the rest of its program, and the chunk it has
minted and not pushed yet. -/
structure Section where
  byReader : Bool
  program : List Op
  minted : Option Chunk
  deriving DecidableEq

/-- The reader numbers its error chunk before it takes the chunk lock. -/
inductive Reader where
  | running
  | failing (chunk : Chunk)
  | failed (chunk : Chunk)
  | ended
  deriving DecidableEq

/-- The shared state.  `history` and `unscreened` are for the proofs: every chunk
ever numbered, and the numbers of those that bypass the screen. -/
structure Stream where
  seq : Nat
  ring : List Chunk
  retained : Nat
  floor : Nat
  screen : List String
  lock : Option Section
  reader : Reader
  history : List Chunk
  unscreened : List Nat
  deriving DecidableEq

namespace Stream

/-- The runtime before its reader starts, with the predecessor's screen if there
is one. -/
def assemble (seed : Option String) : Stream :=
  let empty : Stream :=
    { seq := 0, ring := [], retained := 0, floor := 0, screen := [], lock := none,
      reader := .running, history := [], unscreened := [] }
  match seed.filter (· ≠ "") with
  | none => empty
  | some seed =>
      { empty with
        seq := 1
        ring := [{ seq := 1, data := seed }]
        retained := seed.utf8ByteSize
        screen := [seed]
        history := [{ seq := 1, data := seed }] }

/-- `fetch_add` on the sequence number. -/
def number (stream : Stream) (data : String) (bypasses : Bool) : Stream × Chunk :=
  let chunk : Chunk := { seq := stream.seq + 1, data }
  ({ stream with
      seq := stream.seq + 1
      history := stream.history ++ [chunk]
      unscreened :=
        if bypasses then stream.unscreened ++ [stream.seq + 1] else stream.unscreened }, chunk)

/-- Push under the lock, then trim to the ring's limits. -/
def pushChunk (stream : Stream) (chunk : Chunk) : Stream :=
  let trimmed := trimChunkBuffer maxChunks maxBufferBytes (stream.ring ++ [chunk])
    (stream.retained + chunk.data.utf8ByteSize)
  { stream with ring := trimmed.1, retained := trimmed.2 }

/-- One operation of the section that holds the lock. -/
def perform (stream : Stream) (minted : Option Chunk) : Op → Stream × Option Chunk
  | .process data => ({ stream with screen := stream.screen ++ [data] }, minted)
  | .mint data injected =>
      let numbered := stream.number data injected
      (numbered.1, some numbered.2)
  | .capFloor =>
      match minted with
      | none => (stream, none)
      | some chunk => ({ stream with floor := capInjectedRingFloor stream.floor chunk.seq }, minted)
  | .push =>
      match minted with
      | none => (stream, none)
      | some chunk => (stream.pushChunk chunk, none)

/-- Let the lock go after the last operation. -/
def proceed (byReader : Bool) (rest : List Op) (performed : Stream × Option Chunk) : Stream :=
  { performed.1 with
    lock := if rest = [] then none else some { byReader, program := rest, minted := performed.2 } }

/-- The reader's error text. -/
def readerStopped (key error : String) : String :=
  s!"\r\n[yggterm] terminal reader stopped for {key}: {error}\r\n"

inductive Action where
  | commit (data : String) (lines : List String)
  | endOfFile (data : String) (lines : List String)
  | seedSnapshot (data : String)
  | fail (error : String)
  | lockFailed
  | work
  | trimIdle
  deriving DecidableEq

/-- The reader can take another turn of its loop. -/
def readerFree (stream : Stream) : Bool :=
  stream.reader = .running && stream.lock.all fun held => !held.byReader

def takeLock (stream : Stream) (byReader : Bool) (program : List Op) (minted : Option Chunk) :
    Stream :=
  { stream with lock := some { byReader, program, minted } }

/-- A move whose thread cannot take it now leaves the state alone. -/
def step (key : String) (stream : Stream) : Action → Stream
  | .commit data lines =>
      if stream.lock = none ∧ stream.reader = .running ∧ data ≠ "" then
        stream.takeLock true (commitProgram data lines) none
      else stream
  | .endOfFile data lines =>
      if data = "" then
        if stream.readerFree then { stream with reader := .ended } else stream
      else if stream.lock = none ∧ stream.reader = .running then
        { stream.takeLock true (commitProgram data lines) none with reader := .ended }
      else stream
  | .seedSnapshot data =>
      if stream.lock = none ∧ data ≠ "" then stream.takeLock false (seedProgram data) none
      else stream
  | .fail error =>
      if stream.readerFree then
        let numbered := stream.number (readerStopped key error) true
        { numbered.1 with reader := .failing numbered.2 }
      else stream
  | .lockFailed =>
      match stream.reader, stream.lock with
      | .failing chunk, none =>
          { stream.takeLock true [.push] (some chunk) with reader := .failed chunk }
      | _, _ => stream
  | .work =>
      match stream.lock with
      | none => stream
      | some held =>
          match held.program with
          | [] => { stream with lock := none }
          | op :: rest => proceed held.byReader rest (stream.perform held.minted op)
  | .trimIdle =>
      if stream.lock = none then
        let trimmed :=
          trimChunkBuffer idleTrimMaxChunks idleTrimMaxBytes stream.ring stream.retained
        { stream with ring := trimmed.1, retained := trimmed.2 }
      else stream

end Stream

end Yggterm.TerminalStream
