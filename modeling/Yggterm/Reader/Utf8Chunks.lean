import Yggterm.Library.Utf8

/-!
# Decoding the child's output as it is read

The reader gets the bytes of the PTY in whatever pieces the kernel returns and
keeps an unfinished sequence for the next read.
-/

namespace Yggterm.Reader

open Utf8

theorem fromUtf8_error {pending : List UInt8} {error : Utf8Error}
    (failed : fromUtf8 pending = .error error) :
    (validPrefix pending).2 ≠ [] ∧
      error.validUpTo = pending.length - (validPrefix pending).2.length ∧
      error.errorLen = errorLen (validPrefix pending).2 := by
  unfold fromUtf8 at failed
  split at failed
  · cases failed
  · next unfinished =>
      cases failed
      exact ⟨unfinished, rfl, rfl⟩

theorem errorLen_eq_some {bytes : List UInt8} {length : Nat}
    (reported : errorLen bytes = some length) :
    ∃ rest, next bytes = some (.invalid length, rest) := by
  unfold errorLen at reported
  split at reported
  · next found rest taken =>
      cases reported
      exact ⟨rest, taken⟩
  · cases reported

theorem length_drop_lt {bytes : List UInt8} {count : Nat} (nonempty : bytes ≠ [])
    (positive : 0 < count) : (bytes.drop count).length < bytes.length := by
  have := List.length_pos_iff.mpr nonempty
  rw [List.length_drop]
  omega

theorem fromUtf8_error_ne_nil {pending : List UInt8} {error : Utf8Error}
    (failed : fromUtf8 pending = .error error) : pending ≠ [] := by
  rintro rfl
  exact (fromUtf8_error failed).1 (by rw [validPrefix_nil])

theorem fromUtf8_errorLen_pos {pending : List UInt8} {error : Utf8Error}
    (failed : fromUtf8 pending = .error error) {length : Nat}
    (reported : error.errorLen = some length) : 0 < length := by
  rw [(fromUtf8_error failed).2.2] at reported
  obtain ⟨rest, taken⟩ := errorLen_eq_some reported
  exact (next_invalid _ length rest taken).1

/-- `expect("valid UTF-8 prefix")`; it is only asked of valid beginnings, see
`expectValid_fromUtf8`. -/
def expectValid : Except Utf8Error (List Char) → List Char
  | .ok text => text
  | .error _ => []

/-- The loop of `decode_terminal_utf8_chunk`: the text, and the bytes left pending. -/
def decodePending (pending : List UInt8) : List Char × List UInt8 :=
  match _decoded : fromUtf8 pending with
  | .ok text => (text, [])
  | .error error =>
      if _some : 0 < error.validUpTo then
        (expectValid (fromUtf8 (pending.take error.validUpTo)) ++
            (decodePending (pending.drop error.validUpTo)).1,
          (decodePending (pending.drop error.validUpTo)).2)
      else
        match _reported : error.errorLen with
        | some length =>
            (replacement :: (decodePending (pending.drop length)).1,
              (decodePending (pending.drop length)).2)
        | none => ([], pending)
termination_by pending.length
decreasing_by
  all_goals refine length_drop_lt (fromUtf8_error_ne_nil _decoded) ?_
  all_goals first | exact _some | exact fromUtf8_errorLen_pos _decoded _reported

/-- `decode_terminal_utf8_chunk` -/
def decodeTerminalUtf8Chunk (pending bytes : List UInt8) : List Char × List UInt8 :=
  decodePending (pending ++ bytes)

/-- `flush_terminal_utf8_pending` -/
def flushTerminalUtf8Pending (pending : List UInt8) : List Char :=
  if pending = [] then [] else fromUtf8Lossy pending

/-- The reader's calls, chunk after chunk. -/
def decodeChunks (chunks : List (List UInt8)) : List Char × List UInt8 :=
  chunks.foldl (fun decoded bytes =>
    (decoded.1 ++ (decodeTerminalUtf8Chunk decoded.2 bytes).1,
      (decodeTerminalUtf8Chunk decoded.2 bytes).2)) ([], [])

/-! ## The loop takes the items one by one -/

theorem fromUtf8_ok {pending : List UInt8} {text : List Char}
    (decoded : fromUtf8 pending = .ok text) :
    validPrefix pending = (text, []) := by
  unfold fromUtf8 at decoded
  split at decoded
  · next finished =>
      cases decoded
      exact Prod.ext rfl finished
  · cases decoded

theorem expectValid_fromUtf8 {valid : List UInt8} {text : List Char}
    (isValid : validPrefix valid = (text, [])) : expectValid (fromUtf8 valid) = text := by
  rw [fromUtf8, isValid]
  rfl

/-- What the loop makes of pending bytes. -/
def decodedItems (pending : List UInt8) : List Char × List UInt8 :=
  ((items.drain pending).1.flatMap Item.text, (items.drain pending).2)

theorem decodedItems_validPrefix (pending : List UInt8) :
    decodedItems pending =
      ((validPrefix pending).1 ++ (decodedItems (validPrefix pending).2).1,
        (decodedItems (validPrefix pending).2).2) := by
  have drained := (validPrefix_spec pending).2.2
  have scalars : ∀ text : List Char, (text.map Item.scalar).flatMap Item.text = text := by
    intro text
    induction text with
    | nil => rfl
    | cons char rest inductionHypothesis => simpa [Item.text] using inductionHypothesis
  rw [decodedItems, drained, List.flatMap_append, scalars]
  rfl

theorem decodedItems_of_some {pending rest : List UInt8} {item : Item}
    (taken : next pending = some (item, rest)) :
    decodedItems pending = (item.text ++ (decodedItems rest).1, (decodedItems rest).2) := by
  have read : items.next pending = some (item, rest) := taken
  rw [decodedItems, Tokenizer.drain_of_some read]
  rfl

theorem decodedItems_of_none {pending : List UInt8} (waits : next pending = none) :
    decodedItems pending = ([], pending) := by
  have unread : items.next pending = none := waits
  rw [decodedItems, Tokenizer.drain_of_none unread]
  rfl

/-- Neither a scalar nor an error length: the sequence is not complete. -/
theorem next_eq_none {bytes : List UInt8}
    (noScalar : ∀ char rest, next bytes ≠ some (.scalar char, rest))
    (unreported : errorLen bytes = none) : next bytes = none := by
  cases taken : next bytes with
  | none => rfl
  | some answer =>
      obtain ⟨item, rest⟩ := answer
      cases item with
      | scalar char => exact absurd taken (noScalar char rest)
      | invalid length => simp [errorLen, taken] at unreported

theorem decodePending_eq_decodedItems (pending : List UInt8) :
    decodePending pending = decodedItems pending := by
  obtain ⟨⟨valid, pendingEq, isValid⟩, noScalar, _⟩ := validPrefix_spec pending
  have splits := decodedItems_validPrefix pending
  rw [decodePending]
  split
  · next text decoded =>
      rw [splits, fromUtf8_ok decoded]
      simp [decodedItems]
  · next error failed =>
      have nonempty := fromUtf8_error_ne_nil failed
      obtain ⟨_, validUpTo, reportedLen⟩ := fromUtf8_error failed
      generalize validPrefix pending = stopped at *
      obtain ⟨text, rest⟩ := stopped
      have upTo : error.validUpTo = valid.length := by simp [validUpTo, pendingEq]
      split
      · next some =>
          -- the valid beginning is taken off in one piece
          have taken : pending.take error.validUpTo = valid := by simp [upTo, pendingEq]
          have dropped : pending.drop error.validUpTo = rest := by simp [upTo, pendingEq]
          have shorter : rest.length < pending.length := by
            rw [← dropped]
            exact length_drop_lt nonempty some
          rw [taken, dropped, expectValid_fromUtf8 isValid, decodePending_eq_decodedItems rest,
            splits]
      · next none =>
          -- nothing valid is in front, so the first item decides
          obtain rfl : valid = [] := List.eq_nil_of_length_eq_zero (by omega)
          obtain rfl : pending = rest := by simpa using pendingEq
          split
          · next length reported =>
              obtain ⟨later, taken⟩ := errorLen_eq_some (reportedLen.symm.trans reported)
              have dropped := (next_invalid pending length later taken).2
              have shorter := next_shrinks pending _ later taken
              rw [dropped, decodePending_eq_decodedItems later, decodedItems_of_some taken]
              rfl
          · next reported =>
              have waits := next_eq_none noScalar (reportedLen.symm.trans reported)
              rw [decodedItems_of_none waits]
termination_by pending.length

/-! ## Whole streams -/

theorem decodeChunks_eq (chunks : List (List UInt8)) :
    decodeChunks chunks = decodedItems chunks.flatten := by
  let texts : List Item × List UInt8 → List Char × List UInt8 :=
    fun drained => (drained.1.flatMap Item.text, drained.2)
  have pieces : decodeChunks chunks = texts (items.drainPieces chunks) := by
    unfold decodeChunks Tokenizer.drainPieces
    change List.foldl _ (texts ([], [])) chunks = _
    refine List.foldl_hom texts fun drained bytes => ?_
    simp [texts, decodeTerminalUtf8Chunk, decodePending_eq_decodedItems, decodedItems]
  rw [pieces, Tokenizer.drainPieces_eq]
  rfl

theorem flushTerminalUtf8Pending_eq (pending : List UInt8) :
    flushTerminalUtf8Pending pending = fromUtf8Lossy pending := by
  unfold flushTerminalUtf8Pending
  split
  · next empty => rw [empty, fromUtf8Lossy_nil]
  · rfl

/-- However the child's output is cut, the chunks and the final flush give the
lossy decoding of the whole, and at most three bytes wait between two chunks. -/
theorem decodeChunks_flush_eq_fromUtf8Lossy (chunks : List (List UInt8)) :
    (decodeChunks chunks).1 ++ flushTerminalUtf8Pending (decodeChunks chunks).2 =
        fromUtf8Lossy chunks.flatten ∧
      ∀ seen, seen <+: chunks → (decodeChunks seen).2.length ≤ 3 := by
  refine ⟨?_, fun seen _ => ?_⟩
  · rw [decodeChunks_eq, flushTerminalUtf8Pending_eq, fromUtf8Lossy_eq_drain chunks.flatten]
    rfl
  · rw [decodeChunks_eq]
    have waits : items.next (items.drain seen.flatten).2 = none := Tokenizer.next_drain _
    exact length_le_of_next_eq_none _ waits

end Yggterm.Reader
