import Yggterm.Library.Runs
import Yggterm.TerminalStream.Moves

/-!
# Gaps in a client's stream

A client polls with the cursor of its last answer.  The ring may have dropped what
the client still lacked, and `read` compares the oldest chunk it kept with the
cursor to tell it so.
-/

namespace Yggterm.TerminalStream

/-! ## Reading -/

/-- The error chunk between its numbering and the chunk lock. -/
def Reader.onItsWay : Reader → Option Chunk
  | .failing chunk => some chunk
  | _ => none

/-- What the holder of the chunk lock does next. -/
def Stream.nextOp (stream : Stream) : Option Op :=
  stream.lock.bind fun held => held.program.head?

/-- The parts of `TerminalReadResult` that tell what was read. -/
structure ReadResult where
  cursor : Nat
  chunks : List Chunk
  resyncRequired : Bool
  deriving DecidableEq

/-- What a read takes from elsewhere: the attach seed of a client without a
cursor, and the screen's viewport replay. -/
structure Replay where
  attachSeed : Stream → List Chunk
  reconcile : List String → Option String

namespace Stream

def resyncRequired (stream : Stream) (effectiveCursor : Nat) : Bool :=
  0 < effectiveCursor && stream.ring.head?.any fun oldest => effectiveCursor + 1 < oldest.seq

/-- `screen_reconcile_chunk` -/
def reconcileChunk (stream : Stream) (replay : Replay) : Option Chunk :=
  (replay.reconcile stream.screen).map fun payload => { seq := stream.seq + 1, data := payload }

def read (stream : Stream) (replay : Replay) (cursor : Nat) : ReadResult :=
  let effectiveCursor := if stream.seq < cursor then 0 else cursor
  let chunks :=
    if effectiveCursor = 0 then replay.attachSeed stream
    else stream.ring.filter fun chunk => effectiveCursor < chunk.seq
  { cursor := stream.seq
    chunks :=
      if stream.resyncRequired effectiveCursor then
        chunks ++ (stream.reconcileChunk replay).toList
      else chunks
    resyncRequired := stream.resyncRequired effectiveCursor }

end Stream

/-- A client since it came with the cursor `start`. -/
structure Client where
  start : Nat
  cursor : Nat
  received : List Chunk
  resynced : Bool
  deriving DecidableEq

structure Watched where
  stream : Stream
  client : Option Client
  deriving DecidableEq

/-- A move of the runtime's threads, a client that comes with a cursor of its own,
or the next poll of the client. -/
inductive WatchAction where
  | move (action : Stream.Action)
  | attach (cursor : Nat)
  | poll
  deriving DecidableEq

namespace Watched

def assemble (seed : Option String) : Watched where
  stream := Stream.assemble seed
  client := none

def poll (replay : Replay) (stream : Stream) (client : Client) : Client :=
  let result := stream.read replay client.cursor
  { client with
    cursor := result.cursor
    received := client.received ++ result.chunks
    resynced := client.resynced || result.resyncRequired }

/-- A read holds the chunk lock from its first line to its last. -/
def step (key : String) (replay : Replay) (watched : Watched) : WatchAction → Watched
  | .move action => { watched with stream := watched.stream.step key action }
  | .attach cursor =>
      if 0 < cursor ∧ cursor ≤ watched.stream.seq then
        { watched with
          client := some { start := cursor, cursor, received := [], resynced := false } }
      else watched
  | .poll =>
      match watched.stream.lock with
      | some _ => watched
      | none => { watched with client := watched.client.map (poll replay watched.stream) }

/-- The client has what was numbered up to its cursor, once and in order, or it
was told to resync. -/
def NoSilentGap (watched : Watched) : Prop :=
  ∀ client, watched.client = some client → client.resynced = true ∨
    client.received = between watched.stream.history client.start client.cursor

/-- The condition on a step.  While the error chunk is numbered and not in the
ring, nobody else numbers a chunk; and a client that still lacks chunks reads only
when the error chunk is not on its way and the ring was not emptied. -/
def Timely (watched : Watched) : WatchAction → Prop
  | .move .work =>
      ∀ data injected, watched.stream.nextOp = some (.mint data injected) →
        watched.stream.reader.onItsWay = none
  | .poll =>
      ∀ client, watched.client = some client →
        client.resynced = true ∨ watched.stream.resyncRequired client.cursor = true ∨
          client.cursor = watched.stream.seq ∨
          watched.stream.reader.onItsWay = none ∧ watched.stream.ring ≠ []
  | _ => True

end Watched

/-! ## The ring is the end of the history -/

namespace Stream

theorem trimChunkBuffer_suffix (chunkLimit byteLimit : Nat) (ring : List Chunk)
    (retained : Nat) : (trimChunkBuffer chunkLimit byteLimit ring retained).1 <:+ ring := by
  induction ring generalizing retained with
  | nil =>
      rw [trimChunkBuffer]
      split <;> exact List.suffix_rfl
  | cons chunk rest inductionHypothesis =>
      rw [trimChunkBuffer]
      split
      · exact (inductionHypothesis _).trans (List.suffix_cons chunk rest)
      · exact List.suffix_rfl

/-- Numbered chunks that are not in the ring yet, in the order they will come. -/
def awaiting (stream : Stream) : List Chunk :=
  (stream.lock.bind Section.minted).toList ++ stream.reader.onItsWay.toList

/-- A program never mints over a chunk it has not pushed, and leaves none. -/
def Ready : List Op → Bool → Prop
  | [], minted => minted = false
  | .process _ :: rest, minted => Ready rest minted
  | .mint _ _ :: rest, minted => minted = false ∧ Ready rest true
  | .capFloor :: rest, minted => minted = true ∧ Ready rest true
  | .push :: rest, minted => minted = true ∧ Ready rest false

theorem ready_commitProgram (data : String) (lines : List String) :
    Ready (commitProgram data lines) false := by
  simp only [commitProgram, Ready]
  induction lines with
  | nil => simp [Ready]
  | cons line rest inductionHypothesis =>
      simpa [injectLine, Ready] using inductionHypothesis

/-- The ring with what is awaited is the end of the history. -/
structure InOrder (stream : Stream) : Prop where
  numbered : stream.Numbered
  contiguous : stream.ring ++ stream.awaiting <:+ stream.history
  ready : ∀ held, stream.lock = some held → Ready held.program held.minted.isSome

theorem assemble_inOrder (seed : Option String) : (assemble seed).InOrder := by
  refine ⟨assemble_numbered seed, ?_, ?_⟩
  · unfold assemble
    split <;> exact List.suffix_rfl
  · intro held locked
    unfold assemble at locked
    split at locked <;> simp at locked

/-- What is left of a section after one of its operations. -/
theorem ready_proceed {byReader : Bool} {rest : List Op} {performed : Stream × Option Chunk}
    (ready : Ready rest performed.2.isSome) (held : Section)
    (locked : (proceed byReader rest performed).lock = some held) :
    Ready held.program held.minted.isSome := by
  simp only [proceed] at locked
  split at locked
  · cases locked
  · cases locked
    exact ready

/-- Letting the lock go loses no minted chunk. -/
theorem awaiting_proceed {byReader : Bool} {rest : List Op} {performed : Stream × Option Chunk}
    (ready : Ready rest performed.2.isSome) :
    (proceed byReader rest performed).awaiting =
      performed.2.toList ++ performed.1.reader.onItsWay.toList := by
  simp only [proceed, awaiting]
  split
  · next finished =>
      subst finished
      have nothing : performed.2 = none := by simpa [Ready] using ready
      simp [nothing]
  · rfl

theorem InOrder.perform {stream : Stream} (inOrder : stream.InOrder) {held : Section} {op : Op}
    {rest : List Op} (locked : stream.lock = some held) (program : held.program = op :: rest)
    (alone : ∀ data injected, op = .mint data injected → stream.reader.onItsWay = none) :
    (proceed held.byReader rest (stream.perform held.minted op)).InOrder := by
  have moved : Move "" stream .work _ := .perform held op rest locked program
  have numbered := moved.numbered inOrder.numbered
  have ready := inOrder.ready held locked
  rw [program] at ready
  have contiguous := inOrder.contiguous
  rw [awaiting, locked, Option.bind_some] at contiguous
  cases op with
  | process data =>
      refine ⟨numbered, ?_, ready_proceed ready⟩
      rw [awaiting_proceed ready]
      exact contiguous
  | mint data injected =>
      refine ⟨numbered, ?_, ready_proceed ready.2⟩
      rw [awaiting_proceed ready.2]
      have unminted : held.minted = none := by simpa using ready.1
      have nobody := alone data injected rfl
      simp only [unminted, nobody, Option.toList_none, List.append_nil] at contiguous
      change stream.ring ++ ([_] ++ stream.reader.onItsWay.toList) <:+ stream.history ++ [_]
      rw [nobody]
      exact List.suffix_append_self_iff.mpr contiguous
  | capFloor =>
      obtain ⟨chunk, minted⟩ := Option.isSome_iff_exists.mp ready.1
      rw [minted] at contiguous numbered ⊢
      refine ⟨numbered, ?_, ready_proceed ready.2⟩
      rw [awaiting_proceed ready.2]
      exact contiguous
  | push =>
      obtain ⟨chunk, minted⟩ := Option.isSome_iff_exists.mp ready.1
      rw [minted] at contiguous numbered ⊢
      refine ⟨numbered, ?_, ready_proceed ready.2⟩
      rw [awaiting_proceed ready.2]
      rw [Option.toList_some, ← List.append_assoc] at contiguous
      exact (List.suffix_append_self_iff.mpr (trimChunkBuffer_suffix _ _ _ _)).trans contiguous

theorem Move.inOrder {key : String} {stream next : Stream} {action : Action}
    (move : Move key stream action next) (inOrder : stream.InOrder)
    (alone : action = .work → ∀ data injected, stream.nextOp = some (.mint data injected) →
      stream.reader.onItsWay = none) : next.InOrder := by
  have numbered := move.numbered inOrder.numbered
  have contiguous := inOrder.contiguous
  cases move with
  | stay action => exact inOrder
  | commit data lines free running =>
      refine ⟨numbered, ?_, ?_⟩
      · simpa [awaiting, takeLock, free] using contiguous
      · rintro held ⟨⟩
        exact ready_commitProgram data lines
  | endOfFile data lines free running =>
      refine ⟨numbered, ?_, ?_⟩
      · simpa [awaiting, takeLock, free, running, Reader.onItsWay] using contiguous
      · rintro held ⟨⟩
        exact ready_commitProgram data lines
  | ended lines running =>
      have isRunning : stream.reader = .running := by simp_all [readerFree]
      refine ⟨numbered, ?_, inOrder.ready⟩
      simpa [awaiting, isRunning, Reader.onItsWay] using contiguous
  | seedSnapshot data free =>
      refine ⟨numbered, ?_, ?_⟩
      · simpa [awaiting, takeLock, free] using contiguous
      · rintro held ⟨⟩
        simp [seedProgram, Ready]
  | fail error running =>
      have isRunning : stream.reader = .running := by simp_all [readerFree]
      refine ⟨numbered, ?_, inOrder.ready⟩
      simp only [awaiting, isRunning, Reader.onItsWay, Option.toList_none, List.append_nil]
        at contiguous
      simpa [awaiting, number, Reader.onItsWay] using List.suffix_append_self_iff.mpr contiguous
  | lockFailed chunk failing free =>
      refine ⟨numbered, ?_, ?_⟩
      · simpa [awaiting, takeLock, failing, free, Reader.onItsWay] using contiguous
      · rintro held ⟨⟩
        simp [Ready]
  | perform held op rest locked program =>
      refine inOrder.perform locked program fun data injected isMint => ?_
      exact alone rfl data injected (by simp [nextOp, locked, program, isMint])
  | release held locked program =>
      have ready := inOrder.ready held locked
      rw [program] at ready
      have unminted : held.minted = none := by simpa [Ready] using ready
      refine ⟨numbered, ?_, by simp⟩
      simpa [awaiting, locked, unminted] using contiguous
  | trimIdle free =>
      refine ⟨numbered, ?_, inOrder.ready⟩
      exact (List.suffix_append_self_iff.mpr (trimChunkBuffer_suffix _ _ _ _)).trans contiguous

/-- What the ring dropped is behind a client that is told of no gap, unless the
ring is empty. -/
theorem InOrder.dropped_le {stream : Stream} (inOrder : stream.InOrder) {cursor : Nat}
    {dropped : List Chunk}
    (history : dropped ++ (stream.ring ++ stream.awaiting) = stream.history)
    (positive : 0 < cursor) (noGap : stream.resyncRequired cursor = false)
    (nonempty : stream.ring ≠ []) : ∀ chunk ∈ dropped, chunk.seq ≤ cursor := by
  intro chunk member
  obtain ⟨oldest, rest, ring⟩ := List.exists_cons_of_ne_nil nonempty
  have near : oldest.seq ≤ cursor + 1 := by
    simpa [resyncRequired, ring, positive] using noGap
  have increasing := inOrder.numbered.pairwise
  rw [← history, List.pairwise_append] at increasing
  have before := increasing.2.2 chunk member oldest (by simp [ring])
  omega

/-- A read that is told of no gap returns exactly what the client lacks. -/
theorem InOrder.read_chunks {stream : Stream} (inOrder : stream.InOrder) (replay : Replay)
    {cursor : Nat} (free : stream.lock = none) (positive : 0 < cursor)
    (within : cursor ≤ stream.seq) (noGap : stream.resyncRequired cursor = false)
    (sees : cursor = stream.seq ∨ stream.reader.onItsWay = none ∧ stream.ring ≠ []) :
    (stream.read replay cursor).chunks = between stream.history cursor stream.seq := by
  have effective : ¬ stream.seq < cursor := by omega
  have resumes : cursor ≠ 0 := by omega
  have chunks : (stream.read replay cursor).chunks =
      stream.ring.filter fun chunk => cursor < chunk.seq := by
    simp [read, effective, noGap, resumes]
  have lacking : between stream.history cursor stream.seq =
      stream.history.filter fun chunk => cursor < chunk.seq := by
    refine List.filter_congr fun chunk member => ?_
    simp [inOrder.numbered.seq_le member]
  rw [chunks, lacking]
  obtain ⟨dropped, history⟩ := inOrder.contiguous
  rcases sees with caughtUp | ⟨nobody, nonempty⟩
  · have nothing : ∀ chunk ∈ stream.history, ¬ cursor < chunk.seq := by
      intro chunk member
      have := inOrder.numbered.seq_le member
      omega
    have noneInRing : ∀ chunk ∈ stream.ring, ¬ cursor < chunk.seq :=
      fun chunk member => nothing chunk (by rw [← history]; simp [member])
    rw [List.filter_eq_nil_iff.mpr fun chunk member => by simpa using noneInRing chunk member,
      List.filter_eq_nil_iff.mpr fun chunk member => by simpa using nothing chunk member]
  · have behind := inOrder.dropped_le history positive noGap nonempty
    have noneDropped : dropped.filter (fun chunk => decide (cursor < chunk.seq)) = [] :=
      List.filter_eq_nil_iff.mpr fun chunk member => by simpa using behind chunk member
    have allInRing : stream.awaiting = [] := by simp [awaiting, free, nobody]
    rw [← history, allInRing, List.append_nil, List.filter_append, noneDropped, List.nil_append]

end Stream

/-! ## The client -/

namespace Watched

/-- A client between two reads. -/
structure Follows (stream : Stream) (client : Client) : Prop where
  positive : 0 < client.cursor
  started : client.start ≤ client.cursor
  known : client.cursor ≤ stream.seq
  complete : client.resynced = true ∨
    client.received = between stream.history client.start client.cursor

structure Invariant (watched : Watched) : Prop where
  inOrder : watched.stream.InOrder
  follows : ∀ client, watched.client = some client → Follows watched.stream client

theorem Follows.extends {stream next : Stream} {client : Client}
    (follows : Follows stream client) (extended : stream.Extends next) : Follows next client := by
  refine ⟨follows.positive, follows.started, ?_, ?_⟩
  · exact Nat.le_trans follows.known extended.seq_le
  · rw [between_extends extended follows.known]
    exact follows.complete

theorem Follows.poll {stream : Stream} {client : Client} (follows : Follows stream client)
    (inOrder : stream.InOrder) (replay : Replay) (free : stream.lock = none)
    (timely : client.resynced = true ∨ stream.resyncRequired client.cursor = true ∨
      client.cursor = stream.seq ∨ stream.reader.onItsWay = none ∧ stream.ring ≠ []) :
    Follows stream (poll replay stream client) := by
  refine ⟨Nat.lt_of_lt_of_le follows.positive follows.known,
    Nat.le_trans follows.started follows.known,
    Nat.le_refl _, ?_⟩
  have effective : ¬ stream.seq < client.cursor := Nat.not_lt.mpr follows.known
  have flag : (stream.read replay client.cursor).resyncRequired =
      stream.resyncRequired client.cursor := by
    simp [Stream.read, effective]
  simp only [Watched.poll, Bool.or_eq_true, flag]
  by_cases told : client.resynced = true ∨ stream.resyncRequired client.cursor = true
  · exact .inl told
  · obtain ⟨notBefore, noGap⟩ := not_or.mp told
    right
    have sees := (timely.resolve_left notBefore).resolve_left noGap
    rw [follows.complete.resolve_left notBefore, inOrder.read_chunks replay free follows.positive
      follows.known (by simpa using noGap) sees]
    exact between_append_between inOrder.numbered.pairwise follows.started follows.known

theorem step_invariant (key : String) (replay : Replay) (watched : Watched)
    (action : WatchAction) (invariant : watched.Invariant) (timely : watched.Timely action) :
    (watched.step key replay action).Invariant := by
  cases action with
  | move action =>
      have moved := watched.stream.step_move key action
      refine ⟨moved.inOrder invariant.inOrder ?_, ?_⟩
      · rintro rfl
        exact timely
      · exact fun client isClient => (invariant.follows client isClient).extends moved.extends
  | attach cursor =>
      simp only [step]
      split
      · next known =>
          refine ⟨invariant.inOrder, ?_⟩
          rintro client ⟨⟩
          refine ⟨known.1, Nat.le_refl _, known.2, .inr ?_⟩
          refine (List.filter_eq_nil_iff.mpr fun chunk _ => ?_).symm
          simp only [decide_eq_true_eq]
          omega
      · exact invariant
  | poll =>
      simp only [step]
      split
      · exact invariant
      · next free =>
          refine ⟨invariant.inOrder, fun client isClient => ?_⟩
          obtain ⟨before, isBefore, rfl⟩ := Option.map_eq_some_iff.mp isClient
          exact (invariant.follows before isBefore).poll invariant.inOrder replay free
            (timely before isBefore)

/-- In every interleaving whose steps are timely, no client misses a chunk without
being told to resync. -/
theorem always_noSilentGap (key : String) (replay : Replay) (seed : Option String)
    (actions : List WatchAction)
    (timely : Runs.Guarded (step key replay) Timely (assemble seed) actions) :
    Runs.Always (step key replay) NoSilentGap (assemble seed) actions := by
  have initially : (assemble seed).Invariant :=
    ⟨Stream.assemble_inOrder seed, fun client isClient => by cases isClient⟩
  refine Runs.always_of_guarded (step_invariant key replay) ?_ initially timely
  exact fun watched invariant client isClient => (invariant.follows client isClient).complete

/-- A client that holds the seed polls after the next commit. -/
theorem always_noSilentGap_of_commit :
    let replay : Replay := { attachSeed := Stream.ring, reconcile := List.getLast? }
    let actions : List WatchAction :=
      [.attach 1, .move (.commit "b" []), .move .work, .move .work, .move .work, .poll]
    (Runs.run (step "k" replay) (assemble (some "a")) actions).client =
        some { start := 1, cursor := 2, received :=
          [{ seq := 2, data := "b" }], resynced := false } ∧
      Runs.Always (step "k" replay) NoSilentGap (assemble (some "a")) actions := by
  intro replay actions
  refine ⟨by decide, always_noSilentGap "k" replay (some "a") actions ?_⟩
  refine ⟨trivial, trivial, ?_, ?_, ?_, ?_, trivial⟩
  · exact fun _ _ _ => rfl
  · exact fun _ _ _ => rfl
  · exact fun _ _ _ => rfl
  · exact fun _ _ => .inr (.inr (.inr ⟨rfl, by decide⟩))

/-- A client reads between the numbering of the error chunk and its push, and its
cursor passes the chunk. -/
theorem read_skips_reader_error :
    ¬ ∀ (key : String) (replay : Replay) (seed : Option String) (actions : List WatchAction),
      Runs.Always (step key replay) NoSilentGap (assemble seed) actions := by
  intro always
  have run := always "k" { attachSeed := Stream.ring, reconcile := List.getLast? } (some "a")
    [.attach 1, .move (.fail "e"), .poll]
  have gap := run.2.2.2 { start := 1, cursor := 2, received := [], resynced := false } (by decide)
  revert gap
  decide

end Watched

end Yggterm.TerminalStream
