import Yggterm.TerminalStream.Model

/-!
# What one move can do

Every invariant of the stream is proved from one list of moves.  Chunks are
numbered without a gap whatever the threads do, since the number and the history
move together.
-/

namespace Yggterm.TerminalStream

namespace Stream

/-- The moves of the threads, with what each needs. -/
inductive Move (key : String) (stream : Stream) : Action → Stream → Prop where
  | stay (action : Action) : Move key stream action stream
  | commit (data : String) (lines : List String) (free : stream.lock = none)
      (running : stream.reader = .running) :
      Move key stream (.commit data lines) (stream.takeLock true (commitProgram data lines) none)
  | endOfFile (data : String) (lines : List String) (free : stream.lock = none)
      (running : stream.reader = .running) :
      Move key stream (.endOfFile data lines)
        { stream.takeLock true (commitProgram data lines) none with reader := .ended }
  | ended (lines : List String) (running : stream.readerFree = true) :
      Move key stream (.endOfFile "" lines) { stream with reader := .ended }
  | seedSnapshot (data : String) (free : stream.lock = none) :
      Move key stream (.seedSnapshot data) (stream.takeLock false (seedProgram data) none)
  | fail (error : String) (running : stream.readerFree = true) :
      Move key stream (.fail error)
        { (stream.number (readerStopped key error) true).1 with
          reader := .failing (stream.number (readerStopped key error) true).2 }
  | lockFailed (chunk : Chunk) (failing : stream.reader = .failing chunk)
      (free : stream.lock = none) :
      Move key stream .lockFailed
        { stream.takeLock true [.push] (some chunk) with reader := .failed chunk }
  | perform (held : Section) (op : Op) (rest : List Op) (locked : stream.lock = some held)
      (program : held.program = op :: rest) :
      Move key stream .work (proceed held.byReader rest (stream.perform held.minted op))
  | release (held : Section) (locked : stream.lock = some held) (program : held.program = []) :
      Move key stream .work { stream with lock := none }
  | trimIdle (free : stream.lock = none) :
      Move key stream .trimIdle
        { stream with
          ring := (trimChunkBuffer idleTrimMaxChunks idleTrimMaxBytes
            stream.ring stream.retained).1
          retained := (trimChunkBuffer idleTrimMaxChunks idleTrimMaxBytes
            stream.ring stream.retained).2 }

theorem step_move (key : String) (stream : Stream) (action : Action) :
    Move key stream action (stream.step key action) := by
  cases action with
  | commit data lines =>
      simp only [step]
      split
      · next enabled => exact .commit data lines enabled.1 enabled.2.1
      · exact .stay _
  | endOfFile data lines =>
      simp only [step]
      split
      · next empty =>
          subst empty
          split
          · next running => exact .ended lines running
          · exact .stay _
      · split
        · next enabled => exact .endOfFile data lines enabled.1 enabled.2
        · exact .stay _
  | seedSnapshot data =>
      simp only [step]
      split
      · next enabled => exact .seedSnapshot data enabled.1
      · exact .stay _
  | fail error =>
      simp only [step]
      split
      · next running => exact .fail error running
      · exact .stay _
  | lockFailed =>
      simp only [step]
      split
      · next chunk failing free => exact .lockFailed chunk failing free
      · exact .stay _
  | work =>
      simp only [step]
      split
      · exact .stay _
      · next held locked =>
          split
          · next program => exact .release held locked program
          · next op rest program => exact .perform held op rest locked program
  | trimIdle =>
      simp only [step]
      split
      · next free => exact .trimIdle free
      · exact .stay _

/-! ## Numbers -/

/-- The history holds the chunks `1, …, seq`. -/
def Numbered (stream : Stream) : Prop :=
  stream.history.map Chunk.seq = List.range' 1 stream.seq

theorem assemble_numbered (seed : Option String) : (assemble seed).Numbered := by
  unfold assemble
  split <;> rfl

theorem Numbered.number {stream : Stream} (numbered : stream.Numbered) (data : String)
    (bypasses : Bool) : (stream.number data bypasses).1.Numbered := by
  simp only [Numbered, Stream.number] at numbered ⊢
  rw [List.map_append, numbered, List.range'_1_concat]
  simp [Nat.add_comm]

theorem Move.numbered {key : String} {stream next : Stream} {action : Action}
    (move : Move key stream action next) (numbered : stream.Numbered) : next.Numbered := by
  cases move with
  | fail error running => exact numbered.number (readerStopped key error) true
  | perform held op rest locked program =>
      cases op with
      | mint data injected => exact numbered.number data injected
      | process data => exact numbered
      | capFloor =>
          cases held.minted with
          | none => exact numbered
          | some chunk => exact numbered
      | push =>
          cases held.minted with
          | none => exact numbered
          | some chunk => exact numbered
  | _ => exact numbered

theorem Numbered.pairwise {stream : Stream} (numbered : stream.Numbered) :
    stream.history.Pairwise fun earlier later => earlier.seq < later.seq := by
  have increasing : (List.range' 1 stream.seq).Pairwise (· < ·) := List.pairwise_lt_range' 1
  rw [← numbered, List.pairwise_map] at increasing
  exact increasing

theorem Numbered.seq_le {stream : Stream} (numbered : stream.Numbered) {chunk : Chunk}
    (member : chunk ∈ stream.history) : chunk.seq ≤ stream.seq := by
  have inRange : chunk.seq ∈ List.range' 1 stream.seq := by
    rw [← numbered]
    exact List.mem_map_of_mem member
  simp only [List.mem_range'_1] at inRange
  omega

/-- The history only grows, by chunks with new numbers. -/
structure Extends (stream next : Stream) : Prop where
  history : ∃ fresh, next.history = stream.history ++ fresh ∧
    ∀ chunk ∈ fresh, stream.seq < chunk.seq
  seq_le : stream.seq ≤ next.seq
  le_succ : next.seq ≤ stream.seq + 1
  unscreened_subset : stream.unscreened ⊆ next.unscreened
  unscreened_fresh : ∀ seq ∈ next.unscreened, seq ∈ stream.unscreened ∨ stream.seq < seq

theorem Extends.of_same {stream next : Stream} (history : next.history = stream.history)
    (seq : next.seq = stream.seq) (unscreened : next.unscreened = stream.unscreened) :
    Extends stream next where
  history := ⟨[], by simp [history], by simp⟩
  seq_le := Nat.le_of_eq seq.symm
  le_succ := by omega
  unscreened_subset := by simp [unscreened]
  unscreened_fresh := by simp +contextual [unscreened]

theorem Extends.of_number {stream next : Stream} (data : String) (bypasses : Bool)
    (history : next.history = (stream.number data bypasses).1.history)
    (seq : next.seq = (stream.number data bypasses).1.seq)
    (unscreened : next.unscreened = (stream.number data bypasses).1.unscreened) :
    Extends stream next where
  history := ⟨[(stream.number data bypasses).2], history, by simp [number]⟩
  seq_le := by simp [seq, number]
  le_succ := by simp [seq, number]
  unscreened_subset := by cases bypasses <;> simp [unscreened, number]
  unscreened_fresh := by
    cases bypasses with
    | false => simp +contextual [unscreened, number]
    | true =>
        intro other member
        simp only [unscreened, number, if_true, List.mem_append, List.mem_singleton] at member
        rcases member with old | rfl
        · exact .inl old
        · exact .inr (Nat.lt_succ_self _)

theorem Move.extends {key : String} {stream next : Stream} {action : Action}
    (move : Move key stream action next) : Extends stream next := by
  cases move with
  | fail error running => exact .of_number (readerStopped key error) true rfl rfl rfl
  | perform held op rest locked program =>
      cases op with
      | mint data injected => exact .of_number data injected rfl rfl rfl
      | process data => exact .of_same rfl rfl rfl
      | capFloor =>
          cases held.minted with
          | none => exact .of_same rfl rfl rfl
          | some chunk => exact .of_same rfl rfl rfl
      | push =>
          cases held.minted with
          | none => exact .of_same rfl rfl rfl
          | some chunk => exact .of_same rfl rfl rfl
  | _ => exact .of_same rfl rfl rfl

end Stream

/-! ## Stretches of the history -/

/-- The chunks numbered after `low` and up to `high`. -/
def between (history : List Chunk) (low high : Nat) : List Chunk :=
  history.filter fun chunk => low < chunk.seq ∧ chunk.seq ≤ high

theorem between_cons (chunk : Chunk) (rest : List Chunk) (low high : Nat) :
    between (chunk :: rest) low high =
      if low < chunk.seq ∧ chunk.seq ≤ high then chunk :: between rest low high
      else between rest low high := by
  simp [between, List.filter_cons]

theorem between_eq_nil {history : List Chunk} {low high : Nat}
    (newer : ∀ chunk ∈ history, high < chunk.seq) : between history low high = [] := by
  refine List.filter_eq_nil_iff.mpr fun chunk member => ?_
  have := newer chunk member
  simp only [decide_eq_true_eq]
  omega

theorem between_append_between {history : List Chunk} {low middle high : Nat}
    (increasing : history.Pairwise fun earlier later => earlier.seq < later.seq)
    (lowMiddle : low ≤ middle) (middleHigh : middle ≤ high) :
    between history low middle ++ between history middle high = between history low high := by
  induction history with
  | nil => rfl
  | cons chunk rest inductionHypothesis =>
      obtain ⟨later, restIncreasing⟩ := List.pairwise_cons.mp increasing
      have joined := inductionHypothesis restIncreasing
      rw [between_cons, between_cons, between_cons]
      by_cases first : chunk.seq ≤ middle
      · have notSecond : ¬ middle < chunk.seq := Nat.not_lt.mpr first
        have whole : chunk.seq ≤ high := Nat.le_trans first middleHigh
        by_cases above : low < chunk.seq <;> simp [first, notSecond, whole, above, joined]
      · -- the rest is newer still, so nothing of it is in the first part
        have above : middle < chunk.seq := Nat.lt_of_not_le first
        have nothing : between rest low middle = [] :=
          between_eq_nil fun other member => Nat.lt_trans above (later other member)
        rw [nothing, List.nil_append] at joined
        simp [first, above, Nat.lt_of_le_of_lt lowMiddle above, nothing, joined]

theorem between_extends {stream next : Stream} (extended : stream.Extends next) {low high : Nat}
    (known : high ≤ stream.seq) :
    between next.history low high = between stream.history low high := by
  obtain ⟨fresh, history, newer⟩ := extended.history
  have unseen : between fresh low high = [] :=
    between_eq_nil fun chunk member => Nat.lt_of_le_of_lt known (newer chunk member)
  rw [between, history, List.filter_append]
  change between stream.history low high ++ between fresh low high = _
  rw [unseen, List.append_nil]

theorem Stream.Numbered.between_all {stream : Stream} (numbered : stream.Numbered) :
    between stream.history 0 stream.seq = stream.history := by
  refine List.filter_eq_self.mpr fun chunk member => ?_
  have inRange : chunk.seq ∈ List.range' 1 stream.seq := by
    rw [← numbered]
    exact List.mem_map_of_mem member
  simp only [List.mem_range'_1] at inRange
  simp only [decide_eq_true_eq]
  omega

theorem Stream.Numbered.between_isPrefix {stream : Stream} (numbered : stream.Numbered) {high : Nat}
    (known : high ≤ stream.seq) : between stream.history 0 high <+: stream.history := by
  have joined := between_append_between numbered.pairwise (Nat.zero_le high) known
  rw [numbered.between_all] at joined
  exact ⟨_, joined⟩

end Yggterm.TerminalStream
