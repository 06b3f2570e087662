import Yggterm.TerminalStream.Moves

/-!
# What the screen has and the ring does not tell

The screen is fed by the programs that number what they fed it.  Two kinds of
chunks bypass it: contract lines, for which the reader keeps the injected-ring
floor, and the reader's error chunk, for which nobody keeps anything.
-/

namespace Yggterm.TerminalStream

/-! ## Chunks that bypass the screen -/

namespace Stream

/-- The reader's error chunk, from its numbering on. -/
def errorChunk (stream : Stream) : Option Chunk :=
  match stream.reader with
  | .failing chunk | .failed chunk => some chunk
  | _ => none

/-- The contract line that is numbered and whose floor is about to be set. -/
def uncapped (stream : Stream) : Option Chunk :=
  stream.lock.bind fun held => if held.program.head? = some .capFloor then held.minted else none

end Stream

/-! ## What the screen has processed -/

namespace Stream

/-- A program numbers the payload it has processed, `owed`, and nothing else but
contract lines. -/
def Feeds : List Op → Option String → Prop
  | [], owed => owed = none
  | .process data :: rest, owed => owed = none ∧ Feeds rest (some data)
  | .mint data false :: rest, owed => owed = some data ∧ Feeds rest none
  | .mint _ true :: rest, owed => Feeds rest owed
  | .capFloor :: rest, owed => Feeds rest owed
  | .push :: rest, owed => Feeds rest owed

theorem feeds_commitProgram (data : String) (lines : List String) :
    Feeds (commitProgram data lines) none := by
  simp only [commitProgram, Feeds, true_and]
  induction lines with
  | nil => simp [Feeds]
  | cons line rest inductionHypothesis =>
      simpa [injectLine, Feeds] using inductionHypothesis

/-- While nothing has bypassed the screen, it holds the history and the payload of
the section under way. -/
structure Fed (stream : Stream) (owed : Option String) : Prop where
  locked : ∀ held, stream.lock = some held → Feeds held.program owed
  free : stream.lock = none → owed = none
  screen_eq : stream.unscreened = [] →
    stream.screen = stream.history.map Chunk.data ++ owed.toList

theorem Fed.proceed {byReader : Bool} {rest : List Op} {performed : Stream × Option Chunk}
    {owed : Option String} (feeds : Feeds rest owed)
    (screen_eq : performed.1.unscreened = [] →
      performed.1.screen = performed.1.history.map Chunk.data ++ owed.toList) :
    Fed (proceed byReader rest performed) owed := by
  refine ⟨?_, ?_, screen_eq⟩
  · intro held locked
    simp only [Stream.proceed] at locked
    split at locked
    · cases locked
    · cases locked
      exact feeds
  · intro free
    simp only [Stream.proceed] at free
    split at free
    · next finished =>
        subst finished
        exact feeds
    · cases free

theorem Fed.perform {stream : Stream} {owed : Option String} (fed : Fed stream owed)
    {held : Section} {op : Op} {rest : List Op} (locked : stream.lock = some held)
    (program : held.program = op :: rest) :
    ∃ next, Fed (Stream.proceed held.byReader rest (stream.perform held.minted op)) next := by
  have feeds := fed.locked held locked
  rw [program] at feeds
  have screen_eq := fed.screen_eq
  cases op with
  | process data =>
      obtain ⟨rfl, feeds⟩ := feeds
      refine ⟨some data, .proceed feeds fun nothing => ?_⟩
      simpa [Stream.perform] using screen_eq nothing
  | mint data injected =>
      cases injected with
      | false =>
          obtain ⟨rfl, feeds⟩ := feeds
          refine ⟨none, .proceed feeds fun nothing => ?_⟩
          simpa [Stream.perform, number] using
            screen_eq (by simpa [Stream.perform, number] using nothing)
      | true =>
          refine ⟨owed, .proceed feeds fun nothing => ?_⟩
          simp [Stream.perform, number] at nothing
  | capFloor =>
      refine ⟨owed, .proceed feeds ?_⟩
      cases held.minted with
      | none => exact screen_eq
      | some chunk => exact screen_eq
  | push =>
      refine ⟨owed, .proceed feeds ?_⟩
      cases held.minted with
      | none => exact screen_eq
      | some chunk => exact screen_eq

theorem Move.fed {key : String} {stream next : Stream} {action : Action}
    (move : Move key stream action next) {owed : Option String} (fed : Fed stream owed) :
    ∃ nextOwed, Fed next nextOwed := by
  have screen_eq := fed.screen_eq
  cases move with
  | stay action => exact ⟨owed, fed⟩
  | commit data lines free running =>
      obtain rfl := fed.free free
      refine ⟨none, ?_, fun _ => rfl, screen_eq⟩
      rintro held ⟨⟩
      exact feeds_commitProgram data lines
  | endOfFile data lines free running =>
      obtain rfl := fed.free free
      refine ⟨none, ?_, fun _ => rfl, screen_eq⟩
      rintro held ⟨⟩
      exact feeds_commitProgram data lines
  | ended lines running => exact ⟨owed, fed.locked, fed.free, screen_eq⟩
  | seedSnapshot data free =>
      obtain rfl := fed.free free
      refine ⟨none, ?_, fun _ => rfl, screen_eq⟩
      rintro held ⟨⟩
      simp [seedProgram, Feeds]
  | fail error running =>
      refine ⟨owed, fed.locked, fed.free, fun nothing => ?_⟩
      simp [number] at nothing
  | lockFailed chunk failing free =>
      obtain rfl := fed.free free
      refine ⟨none, ?_, fun _ => rfl, screen_eq⟩
      rintro held ⟨⟩
      simp [Feeds]
  | perform held op rest locked program => exact fed.perform locked program
  | release held locked program =>
      have feeds := fed.locked held locked
      rw [program] at feeds
      refine ⟨owed, ?_, fun _ => feeds, screen_eq⟩
      rintro other ⟨⟩
  | trimIdle free => exact ⟨owed, fed.locked, fed.free, screen_eq⟩

/-- No chunk up to the number bypassed the screen. -/
def Clear (stream : Stream) (seq : Nat) : Prop :=
  ∀ bypassing ∈ stream.unscreened, seq < bypassing

structure Screened (stream : Stream) : Prop where
  numbered : stream.Numbered
  fed : ∃ owed, Fed stream owed
  known : ∀ bypassing ∈ stream.unscreened, bypassing ≤ stream.seq
  covered : ∀ seq ≤ stream.seq, stream.Clear seq →
    (between stream.history 0 seq).map Chunk.data <+: stream.screen

theorem assemble_screened (seed : Option String) : (assemble seed).Screened := by
  refine ⟨assemble_numbered seed, ⟨none, ?_⟩, ?_, ?_⟩
  · unfold assemble
    split <;> exact ⟨fun held locked => by simp at locked, fun _ => rfl, fun _ => rfl⟩
  · unfold assemble
    split <;> simp
  · intro seq known _
    refine ((assemble_numbered seed).between_isPrefix known).map Chunk.data |>.trans ?_
    unfold assemble
    split <;> exact List.prefix_rfl

theorem Move.screen_isPrefix {key : String} {stream next : Stream} {action : Action}
    (move : Move key stream action next) : stream.screen <+: next.screen := by
  cases move with
  | perform held op rest locked program =>
      cases op with
      | process data => exact List.prefix_append _ _
      | mint data injected => exact List.prefix_rfl
      | capFloor => cases held.minted <;> exact List.prefix_rfl
      | push => cases held.minted <;> exact List.prefix_rfl
  | _ => exact List.prefix_rfl

theorem Move.known {key : String} {stream next : Stream} {action : Action}
    (move : Move key stream action next)
    (known : ∀ bypassing ∈ stream.unscreened, bypassing ≤ stream.seq) :
    ∀ bypassing ∈ next.unscreened, bypassing ≤ next.seq := by
  have numbered : ∀ data bypasses, ∀ bypassing ∈ (stream.number data bypasses).1.unscreened,
      bypassing ≤ stream.seq + 1 := by
    intro data bypasses bypassing member
    cases bypasses with
    | false => exact Nat.le_succ_of_le (known bypassing member)
    | true =>
        rcases List.mem_append.mp member with old | new
        · exact Nat.le_succ_of_le (known bypassing old)
        · exact Nat.le_of_eq (List.mem_singleton.mp new)
  cases move with
  | fail error running => exact numbered (readerStopped key error) true
  | perform held op rest locked program =>
      cases op with
      | process data => exact known
      | mint data injected => exact numbered data injected
      | capFloor => cases held.minted <;> exact known
      | push => cases held.minted <;> exact known
  | _ => exact known

theorem Move.screened {key : String} {stream next : Stream} {action : Action}
    (move : Move key stream action next) (screened : stream.Screened) : next.Screened := by
  obtain ⟨owed, fed⟩ := screened.fed
  have numbered := move.numbered screened.numbered
  have known := move.known screened.known
  obtain ⟨nextOwed, nextFed⟩ := move.fed fed
  refine ⟨numbered, ⟨nextOwed, nextFed⟩, known, fun seq within clear => ?_⟩
  have extended := move.extends
  by_cases old : seq ≤ stream.seq
  · rw [between_extends extended old]
    refine (screened.covered seq old ?_).trans move.screen_isPrefix
    exact fun bypassing member => clear bypassing (extended.unscreened_subset member)
  · -- only the newest number is new, and nothing bypassing is above it
    have nothing : next.unscreened = [] := by
      refine List.eq_nil_iff_forall_not_mem.mpr fun bypassing member => ?_
      have above := clear bypassing member
      have below := known bypassing member
      have step := extended.le_succ
      omega
    rw [nextFed.screen_eq nothing]
    exact ((numbered.between_isPrefix within).map Chunk.data).trans (List.prefix_append _ _)

/-! ## The floor -/

theorem capInjectedRingFloor_le {floor seq bound : Nat} (floorBound : floor ≤ bound)
    (seqBound : seq ≤ bound) : capInjectedRingFloor floor seq ≤ bound := by
  unfold capInjectedRingFloor
  split
  · exact seqBound
  · exact floorBound

theorem capInjectedRingFloor_of_none {floor seq : Nat} (noFloor : floor = 0) :
    capInjectedRingFloor floor seq = seq := by
  simp [capInjectedRingFloor, noFloor]

theorem capInjectedRingFloor_le_floor {floor seq : Nat} (someFloor : floor ≠ 0) :
    capInjectedRingFloor floor seq ≤ floor := by
  unfold capInjectedRingFloor
  split <;> omega

theorem capInjectedRingFloor_ne_zero {floor seq : Nat} (positive : 0 < seq) :
    capInjectedRingFloor floor seq ≠ 0 := by
  unfold capInjectedRingFloor
  split <;> omega

/-- Every injected line is capped right after it is numbered. -/
def Caps : List Op → Prop
  | [] => True
  | .mint _ true :: rest => rest.head? = some .capFloor ∧ Caps rest
  | _ :: rest => Caps rest

theorem caps_commitProgram (data : String) (lines : List String) :
    Caps (commitProgram data lines) := by
  simp only [commitProgram, Caps]
  induction lines with
  | nil => simp [Caps]
  | cons line rest inductionHypothesis =>
      simpa [injectLine, Caps] using inductionHypothesis

theorem Caps.tail {op : Op} {rest : List Op} (caps : Caps (op :: rest)) : Caps rest := by
  cases op with
  | mint data injected =>
      cases injected with
      | false => exact caps
      | true => exact caps.2
  | _ => exact caps

/-- The floor is below all that bypassed the screen; while there is none, what
bypassed it is the reader's error or the line about to be capped. -/
structure Floored (stream : Stream) : Prop where
  floor_le : stream.floor ≤ stream.seq
  lowest : ∀ bypassing ∈ stream.unscreened, stream.floor ≤ bypassing
  explained : stream.floor = 0 → ∀ bypassing ∈ stream.unscreened, ∃ chunk, chunk.seq = bypassing ∧
    (stream.errorChunk = some chunk ∨ stream.uncapped = some chunk)
  caps : ∀ held, stream.lock = some held → Caps held.program
  injecting : ∀ held, stream.lock = some held → .capFloor ∈ held.program →
    held.byReader = true ∧ stream.errorChunk = none
  minted : ∀ held chunk, stream.lock = some held → held.minted = some chunk →
    0 < chunk.seq ∧ chunk.seq ≤ stream.seq
  failing : ∀ chunk, stream.reader = .failing chunk → 0 < chunk.seq ∧ chunk.seq ≤ stream.seq

theorem assemble_floored (seed : Option String) : (assemble seed).Floored := by
  unfold assemble
  split <;> exact
    { floor_le := Nat.zero_le _
      lowest := by simp
      explained := by simp
      caps := by simp
      injecting := by simp
      minted := by simp
      failing := by simp }

theorem uncapped_of_free {stream : Stream} (free : stream.lock = none) :
    stream.uncapped = none := by
  simp [uncapped, free]

theorem uncapped_of_program {stream : Stream} {held : Section} (locked : stream.lock = some held)
    (other : held.program.head? ≠ some .capFloor) : stream.uncapped = none := by
  simp [uncapped, locked, other]

/-- Before a free reader fails there is nothing to explain. -/
theorem Floored.nothing_of_readerFree {stream : Stream} (floored : stream.Floored)
    (readerFree : stream.readerFree = true) (noFloor : stream.floor = 0) :
    stream.unscreened = [] := by
  refine List.eq_nil_iff_forall_not_mem.mpr fun bypassing member => ?_
  obtain ⟨chunk, _, error | capping⟩ := floored.explained noFloor bypassing member
  · have running : stream.reader = .running := by simp_all [Stream.readerFree]
    simp [errorChunk, running] at error
  · obtain ⟨held, locked, capped⟩ := Option.bind_eq_some_iff.mp capping
    have capsNext : held.program.head? = some .capFloor := by
      by_contra other
      simp [other] at capped
    have byReader := (floored.injecting held locked (List.mem_of_head? capsNext)).1
    simp [Stream.readerFree, locked, byReader] at readerFree

theorem mem_unscreened_number {stream : Stream} {data : String} {bypasses : Bool} {seq : Nat}
    (member : seq ∈ (stream.number data bypasses).1.unscreened) :
    seq ∈ stream.unscreened ∨ bypasses = true ∧ seq = stream.seq + 1 := by
  cases bypasses with
  | false => exact .inl member
  | true =>
      rcases List.mem_append.mp member with old | new
      · exact .inl old
      · exact .inr ⟨rfl, List.mem_singleton.mp new⟩

theorem Floored.numbered_lowest {stream : Stream} (floored : stream.Floored) (data : String)
    (bypasses : Bool) :
    ∀ bypassing ∈ (stream.number data bypasses).1.unscreened, stream.floor ≤ bypassing := by
  intro bypassing member
  rcases mem_unscreened_number member with old | ⟨_, rfl⟩
  · exact floored.lowest bypassing old
  · exact Nat.le_succ_of_le floored.floor_le

theorem proceed_lock {byReader : Bool} {rest : List Op} {performed : Stream × Option Chunk}
    {held : Section} (locked : (proceed byReader rest performed).lock = some held) :
    held = { byReader, program := rest, minted := performed.2 } := by
  simp only [proceed] at locked
  split at locked
  · cases locked
  · cases locked
    rfl

theorem uncapped_proceed {byReader : Bool} {rest : List Op} {performed : Stream × Option Chunk}
    (capsNext : rest.head? = some .capFloor) :
    (proceed byReader rest performed).uncapped = performed.2 := by
  have more : rest ≠ [] := by
    rintro rfl
    simp at capsNext
  simp [uncapped, proceed, more, capsNext]

theorem Floored.proceed {byReader : Bool} {rest : List Op} {performed : Stream × Option Chunk}
    (floor_le : performed.1.floor ≤ performed.1.seq)
    (lowest : ∀ bypassing ∈ performed.1.unscreened, performed.1.floor ≤ bypassing)
    (explained : performed.1.floor = 0 → ∀ bypassing ∈ performed.1.unscreened,
      ∃ chunk, chunk.seq = bypassing ∧ (performed.1.errorChunk = some chunk ∨
        rest.head? = some .capFloor ∧ performed.2 = some chunk))
    (caps : Caps rest)
    (injecting : .capFloor ∈ rest → byReader = true ∧ performed.1.errorChunk = none)
    (minted : ∀ chunk, performed.2 = some chunk → 0 < chunk.seq ∧ chunk.seq ≤ performed.1.seq)
    (failing : ∀ chunk, performed.1.reader = .failing chunk →
      0 < chunk.seq ∧ chunk.seq ≤ performed.1.seq) :
    (proceed byReader rest performed).Floored := by
  refine ⟨floor_le, lowest, ?_, ?_, ?_, ?_, failing⟩
  · intro noFloor bypassing member
    obtain ⟨chunk, isSeq, error | ⟨capsNext, isMinted⟩⟩ := explained noFloor bypassing member
    · exact ⟨chunk, isSeq, .inl error⟩
    · exact ⟨chunk, isSeq, .inr ((uncapped_proceed capsNext).trans isMinted)⟩
  · intro held locked
    rw [proceed_lock locked]
    exact caps
  · intro held locked later
    rw [proceed_lock locked] at later ⊢
    exact injecting later
  · intro held chunk locked
    rw [proceed_lock locked]
    exact minted chunk

theorem Floored.perform {stream : Stream} (floored : stream.Floored) {held : Section} {op : Op}
    {rest : List Op} (locked : stream.lock = some held) (program : held.program = op :: rest) :
    (Stream.proceed held.byReader rest (stream.perform held.minted op)).Floored := by
  have caps := floored.caps held locked
  rw [program] at caps
  have injecting : .capFloor ∈ rest → held.byReader = true ∧ stream.errorChunk = none := by
    intro later
    exact floored.injecting held locked (by simp [program, later])
  have knownMint := fun chunk => floored.minted held chunk locked
  -- unless the operation is the cap, only an error is left to explain what has no floor
  have byError : op ≠ .capFloor → stream.floor = 0 → ∀ {minted : Chunk → Prop},
      ∀ bypassing ∈ stream.unscreened, ∃ chunk, chunk.seq = bypassing ∧
        (stream.errorChunk = some chunk ∨ minted chunk) := by
    intro other noFloor _ bypassing member
    obtain ⟨chunk, isSeq, error | capping⟩ := floored.explained noFloor bypassing member
    · exact ⟨chunk, isSeq, .inl error⟩
    · have nothing := uncapped_of_program locked (by simp [program, other])
      simp [nothing] at capping
  cases op with
  | process data =>
      exact .proceed floored.floor_le floored.lowest (fun noFloor => byError (by simp) noFloor)
        caps.tail injecting knownMint floored.failing
  | mint data injected =>
      refine .proceed (Nat.le_succ_of_le floored.floor_le) ?_ ?_ caps.tail injecting ?_ ?_
      · exact (floored.numbered_lowest data injected)
      · intro noFloor bypassing member
        rcases mem_unscreened_number member with old | ⟨rfl, rfl⟩
        · exact byError (by simp) noFloor bypassing old
        · exact ⟨_, rfl, .inr ⟨caps.1, rfl⟩⟩
      · rintro chunk ⟨⟩
        exact ⟨Nat.succ_pos _, Nat.le_refl _⟩
      · intro chunk failing
        have := floored.failing chunk failing
        exact ⟨this.1, Nat.le_succ_of_le this.2⟩
  | capFloor =>
      cases isMinted : held.minted with
      | none =>
          refine .proceed floored.floor_le floored.lowest ?_ caps.tail injecting
            (fun chunk impossible => by cases impossible) floored.failing
          intro noFloor bypassing member
          obtain ⟨chunk, isSeq, error | capping⟩ := floored.explained noFloor bypassing member
          · exact ⟨chunk, isSeq, .inl error⟩
          · simp [uncapped, locked, isMinted] at capping
      | some chunk =>
          have known := knownMint chunk isMinted
          have noError := (floored.injecting held locked (by simp [program])).2
          rw [isMinted] at knownMint
          refine .proceed ?_ ?_ ?_ caps.tail injecting knownMint floored.failing
          · exact capInjectedRingFloor_le floored.floor_le known.2
          · intro bypassing member
            by_cases noFloor : stream.floor = 0
            · -- the only chunk without a floor is the one being capped
              obtain ⟨other, isSeq, error | capping⟩ := floored.explained noFloor bypassing member
              · simp [noError] at error
              · obtain rfl : chunk = other := by
                  simpa [uncapped, locked, program, isMinted] using capping
                exact Nat.le_of_eq ((capInjectedRingFloor_of_none noFloor).trans isSeq)
            · exact Nat.le_trans (capInjectedRingFloor_le_floor noFloor) (floored.lowest _ member)
          · intro noFloor
            exact absurd noFloor (capInjectedRingFloor_ne_zero known.1)
  | push =>
      cases held.minted with
      | none =>
          exact .proceed floored.floor_le floored.lowest (fun noFloor => byError (by simp) noFloor)
            caps.tail injecting (fun chunk impossible => by cases impossible) floored.failing
      | some chunk =>
          exact .proceed floored.floor_le floored.lowest (fun noFloor => byError (by simp) noFloor)
            caps.tail injecting (fun chunk impossible => by cases impossible) floored.failing

/-- With the lock free, an error alone explains what has no floor. -/
theorem Floored.explained_of_uncapped_eq_none {stream : Stream} (floored : stream.Floored)
    (nothing : stream.uncapped = none) (noFloor : stream.floor = 0) :
    ∀ bypassing ∈ stream.unscreened, ∃ chunk, chunk.seq = bypassing ∧
      stream.errorChunk = some chunk := by
  intro bypassing member
  obtain ⟨chunk, isSeq, error | capping⟩ := floored.explained noFloor bypassing member
  · exact ⟨chunk, isSeq, error⟩
  · simp [nothing] at capping

/-- Taking the free lock for a program that may inject only if the reader has not
failed. -/
theorem Floored.takeLock {stream : Stream} (floored : stream.Floored) (free : stream.lock = none)
    {byReader : Bool} {program : List Op} {minted : Option Chunk} (caps : Caps program)
    (injecting : .capFloor ∈ program → byReader = true ∧ stream.errorChunk = none)
    (known : ∀ chunk, minted = some chunk → 0 < chunk.seq ∧ chunk.seq ≤ stream.seq) :
    (stream.takeLock byReader program minted).Floored := by
  refine ⟨floored.floor_le, floored.lowest, ?_, ?_, ?_, ?_, floored.failing⟩
  · intro noFloor bypassing member
    obtain ⟨chunk, isSeq, error⟩ := floored.explained_of_uncapped_eq_none (uncapped_of_free free)
      noFloor bypassing member
    exact ⟨chunk, isSeq, .inl error⟩
  · rintro held ⟨⟩
    exact caps
  · rintro held ⟨⟩
    exact injecting
  · rintro held chunk ⟨⟩
    exact known chunk

/-- Moving the reader on, as long as it hides no error that explains a chunk. -/
theorem Floored.setReader {stream : Stream} (floored : stream.Floored) (reader : Reader)
    (same : { stream with reader }.errorChunk = stream.errorChunk)
    (failing : ∀ chunk, reader = .failing chunk → 0 < chunk.seq ∧ chunk.seq ≤ stream.seq) :
    { stream with reader }.Floored := by
  refine ⟨floored.floor_le, floored.lowest, ?_, floored.caps, ?_, floored.minted, failing⟩
  · intro noFloor bypassing member
    rw [same]
    exact floored.explained noFloor bypassing member
  · rw [same]
    exact floored.injecting

theorem errorChunk_of_running {stream : Stream} (running : stream.reader = .running) :
    stream.errorChunk = none := by
  simp [errorChunk, running]

theorem readerFree_running {stream : Stream} (readerFree : stream.readerFree = true) :
    stream.reader = .running := by
  simp_all [Stream.readerFree]

theorem Floored.fail {stream : Stream} (floored : stream.Floored)
    (readerFree : stream.readerFree = true) (data : String) :
    { (stream.number data true).1 with
      reader := .failing (stream.number data true).2 }.Floored := by
  refine ⟨Nat.le_succ_of_le floored.floor_le, floored.numbered_lowest data true, ?_, floored.caps,
    ?_, ?_, ?_⟩
  · intro noFloor bypassing member
    have numbered : bypassing ∈ (stream.number data true).1.unscreened := member
    rcases mem_unscreened_number numbered with old | ⟨_, rfl⟩
    · simp [floored.nothing_of_readerFree readerFree noFloor] at old
    · exact ⟨_, rfl, .inl rfl⟩
  · intro held locked later
    have byReader := (floored.injecting held locked later).1
    have held_lock : stream.lock = some held := locked
    simp [Stream.readerFree, held_lock, byReader] at readerFree
  · intro held chunk locked isMinted
    have known := floored.minted held chunk locked isMinted
    exact ⟨known.1, Nat.le_succ_of_le known.2⟩
  · rintro chunk ⟨⟩
    exact ⟨Nat.succ_pos _, Nat.le_refl _⟩

theorem Move.floored {key : String} {stream next : Stream} {action : Action}
    (move : Move key stream action next) (floored : stream.Floored) : next.Floored := by
  have noMint : ∀ chunk, (none : Option Chunk) = some chunk →
      0 < chunk.seq ∧ chunk.seq ≤ stream.seq := fun chunk impossible => by cases impossible
  cases move with
  | stay action => exact floored
  | commit data lines free running =>
      exact floored.takeLock free (caps_commitProgram data lines)
        (fun _ => ⟨rfl, errorChunk_of_running running⟩) noMint
  | endOfFile data lines free running =>
      have opened := floored.takeLock free (caps_commitProgram data lines)
        (fun _ => ⟨rfl, errorChunk_of_running running⟩) noMint
      exact opened.setReader .ended (errorChunk_of_running running).symm (by simp)
  | ended lines readerFree =>
      have running := readerFree_running readerFree
      exact floored.setReader .ended (errorChunk_of_running running).symm (by simp)
  | seedSnapshot data free =>
      exact floored.takeLock free (by simp [seedProgram, Caps]) (by simp [seedProgram]) noMint
  | fail error readerFree => exact floored.fail readerFree _
  | lockFailed chunk failing free =>
      have opened : (stream.takeLock true [.push] (some chunk)).Floored := by
        refine floored.takeLock free (by simp [Caps]) (by simp) ?_
        rintro other ⟨⟩
        exact floored.failing chunk failing
      refine opened.setReader (.failed chunk) ?_ (by simp)
      simp [errorChunk, Stream.takeLock, failing]
  | perform held op rest locked program => exact floored.perform locked program
  | release held locked program =>
      refine ⟨floored.floor_le, floored.lowest, ?_, by simp, by simp, by simp, floored.failing⟩
      intro noFloor bypassing member
      obtain ⟨chunk, isSeq, error⟩ := floored.explained_of_uncapped_eq_none
        (uncapped_of_program locked (by simp [program])) noFloor bypassing member
      exact ⟨chunk, isSeq, .inl error⟩
  | trimIdle free =>
      exact ⟨floored.floor_le, floored.lowest, floored.explained, floored.caps, floored.injecting,
        floored.minted, floored.failing⟩

end Stream

end Yggterm.TerminalStream
