import Mathlib.Algebra.Ring.Nat
import Mathlib.Data.List.Sort
import Yggterm.Library.Json
import Yggterm.Library.Lines

/-!
# Generational record streams

`retention.rs`: a stream is a live file of JSON lines and the generations it was rotated
into, each named for the moment of its rotation.  A read of a window opens only the files
that can hold records of the window and parses only the lines that can.
-/

namespace Yggterm.Retention

open Text Search Json

/-- A `u64`. -/
abbrev Millis := Fin (2 ^ 64)

/-- A file of a directory: its last change since the epoch, and its text if it can be read. -/
structure DirEntry where
  name : List Char
  modifiedMs : Option Nat
  text : Option (List Char)

/-- The name and the text of the live file, and its directory if that can be listed. -/
structure Stream where
  name : List Char
  live : Option (List Char)
  directory : Option (List DirEntry)

structure Generation where
  text : Option (List Char)
  tsMs : Nat

/-- `str::strip_suffix`. -/
def stripSuffix (suffix text : List Char) : Option (List Char) :=
  if suffix <:+ text then some (text.take (text.length - suffix.length)) else none

def Stream.stem (stream : Stream) : List Char :=
  (stripSuffix ".jsonl".toList stream.name).getD stream.name

/-- The text between the name of a stream and the extension, in the name of a generation. -/
def stampText (stem name : List Char) : Option (List Char) :=
  if stem ++ ".g".toList <+: name then
    stripSuffix ".jsonl".toList (name.drop (stem ++ ".g".toList).length)
  else none

/-- The generation a file is, if it is one of the stream's. -/
def generationOf (stem : List Char) (entry : DirEntry) : Option Generation :=
  match stampText stem entry.name with
  | some stamp => (parseUnsigned 128 stamp).map fun tsMs => ⟨entry.text, tsMs⟩
  | none =>
      -- the single rotated file of before generations is aged by its last change
      if entry.name = stem ++ ".previous.jsonl".toList then
        some ⟨entry.text, entry.modifiedMs.getD 0⟩
      else none

/-- `list_generations`. -/
def listGenerations (stream : Stream) : List Generation :=
  (stream.directory.getD []).filterMap (generationOf stream.stem)

/-- `JSONL_WINDOW_SLACK_MS`. -/
def jsonlWindowSlackMs : Nat := 60000

/-- `jsonl_read_paths_since`: the texts of the files, oldest first, the live file last. -/
def jsonlReadPathsSince (stream : Stream) (sinceMs : Option Millis) :
    List (Option (List Char)) :=
  let generations := (listGenerations stream).mergeSort fun first second =>
    first.tsMs ≤ second.tsMs
  let floor := sinceMs.map fun since => since.val - jsonlWindowSlackMs
  ((generations.filter fun generation => floor.all (· ≤ generation.tsMs)).map Generation.text) ++
    [stream.live]

/-- `jsonl_read_paths`. -/
def jsonlReadPaths (stream : Stream) : List (Option (List Char)) := jsonlReadPathsSince stream none

def needle : List Char := "\"ts_ms\":".toList

/-- What one more candidate makes of the best bound so far. -/
def raise (best : Option Nat) (after : List Char) : Option Nat :=
  match parseUnsigned 64 ((trimStart after).takeWhile Char.isDigit) with
  | some value => some (best.elim value (max · value))
  | none => best

/-- The loop over the occurrences of the key. -/
def upperBoundFrom (best : Option Nat) (rest : List Char) : Option Nat :=
  match _found : findText needle rest with
  | none => best
  | some (_, after) => upperBoundFrom (raise best after) after
termination_by rest.length
decreasing_by exact length_lt_of_findText (by decide) _found

/-- `jsonl_line_ts_ms_upper_bound`. -/
def jsonlLineTsMsUpperBound (line : List Char) : Option Nat := upperBoundFrom none line

/-- The time of a record as the filter reads it. -/
def tsMs (record : Value) :
    Nat := (((record.get "ts_ms".toList).bind Value.asU64).map Fin.val).getD 0

section Parse

variable (parse : List Char → Option Value)

/-- The record a line is visited as, if it is. -/
def recordSince (sinceMs : Option Millis) (line : List Char) : Option Value :=
  let line := trim line
  if line = [] then none
  else if sinceMs.any (fun since => (jsonlLineTsMsUpperBound line).any (· < since.val)) then none
  else
    match parse line with
    | none => none
    | some record =>
        if sinceMs.any (fun since => tsMs record < since.val) then none else some record

/-- The records of a file that are visited; a file that cannot be read is passed over. -/
def recordsSince (sinceMs : Option Millis) (text : Option (List Char)) : List Value :=
  (lines (text.getD [])).filterMap (recordSince parse sinceMs)

/-- `for_each_jsonl_record_since`: the records visited, in their order. -/
def forEachJsonlRecordSince (stream : Stream) (sinceMs : Option Millis) : List Value :=
  (jsonlReadPathsSince stream sinceMs).flatMap (recordsSince parse sinceMs)

end Parse

/-! ## Reading a window of a stream

A windowed read visits what a read of the whole stream visits from the beginning of the
window on.  The bound of a line is never below the time of its record: the scan meets every
occurrence of the key, and the record's own is one of them. -/

/-! ### The bound of a line -/

theorem le_raise {best : Option Nat} {bound : Nat} (isBound : ∃ value ∈ best, bound ≤ value)
    (after : List Char) : ∃ value ∈ raise best after, bound ≤ value := by
  obtain ⟨value, rfl, isLe⟩ := isBound
  rw [raise]
  split
  · next other _ => exact ⟨max value other, rfl, le_trans isLe (le_max_left value other)⟩
  · exact ⟨value, rfl, isLe⟩

/-- The scan never lowers its bound. -/
theorem le_upperBoundFrom {best : Option Nat} {bound : Nat} (rest : List Char)
    (isBound : ∃ value ∈ best, bound ≤ value) :
    ∃ value ∈ upperBoundFrom best rest, bound ≤ value := by
  fun_induction upperBoundFrom best rest with
  | case1 best rest absent => exact isBound
  | case2 best rest before after found inductionHypothesis =>
      exact inductionHypothesis (le_raise isBound after)

/-- The number behind an occurrence of the key is a candidate. -/
theorem le_raise_digits (best : Option Nat) {value : Nat} (small : value < 2 ^ 64)
    {after : List Char} (ended : ∀ char ∈ after.head?, char.isDigit = false) :
    ∃ bound ∈ raise best (Nat.toDigits 10 value ++ after), value ≤ bound := by
  have isDigits : ∀ char ∈ Nat.toDigits 10 value, char.isDigit = true :=
    fun char member => Nat.isDigit_of_mem_toDigits (by decide) (by decide) member
  have started : trimStart (Nat.toDigits 10 value ++ after) = Nat.toDigits 10 value ++ after := by
    obtain ⟨first, others, isCons⟩ := List.exists_cons_of_ne_nil (@Nat.toDigits_ne_nil value 10)
    have solid := isWhitespace_of_isDigit (isDigits first (by simp [isCons]))
    rw [isCons]
    exact List.dropWhile_cons_of_neg (by simp [solid])
  have stopped : after.takeWhile Char.isDigit = [] := by
    cases after with
    | nil => rfl
    | cons first others => exact List.takeWhile_cons_of_neg (by simp [ended first rfl])
  rw [raise, started, List.takeWhile_append_of_pos isDigits, stopped, List.append_nil,
    parseUnsigned_toDigits, if_pos small]
  cases best with
  | none => exact ⟨value, rfl, le_refl value⟩
  | some bound => exact ⟨max bound value, rfl, le_max_right bound value⟩

/-- The scan meets every occurrence of the key. -/
theorem le_upperBoundFrom_of_occurrence {value : Nat} (small : value < 2 ^ 64)
    {best : Option Nat} {rest before after : List Char}
    (isRest : rest = before ++ (needle ++ (Nat.toDigits 10 value ++ after)))
    (ended : ∀ char ∈ after.head?, char.isDigit = false) :
    ∃ bound ∈ upperBoundFrom best rest, value ≤ bound := by
  fun_induction upperBoundFrom best rest generalizing before with
  | case1 best rest absent =>
      exact absurd (List.prefix_append needle _) (not_isPrefix_of_findText_eq_none absent isRest)
  | case2 best rest first later found inductionHypothesis =>
      rcases occurrence_of_findText (by decide) found isRest with isOwn | ⟨between, behind⟩
      · apply le_upperBoundFrom
        rw [isOwn]
        exact le_raise_digits best small ended
      · exact inductionHypothesis behind

/-- The bound of a compact line is not below the time of its record. -/
theorem tsMs_le_upperBound {record : Value} {bound : Nat}
    (isBound : jsonlLineTsMsUpperBound record.render = some bound) : tsMs record ≤ bound := by
  cases isTime : (record.get "ts_ms".toList).bind Value.asU64 with
  | none =>
      rw [tsMs, isTime]
      exact Nat.zero_le bound
  | some time =>
      obtain ⟨field, isField, isNumber⟩ := Option.bind_eq_some_iff.mp isTime
      obtain rfl : field = .number (.unsigned time) := by
        unfold Value.asU64 at isNumber
        split at isNumber
        · cases isNumber
          rfl
        · cases isNumber
      obtain ⟨before, after, isRender, ended⟩ := render_of_get isField
      have isNeedle : quoted "ts_ms".toList ++ [':'] = needle := by decide
      obtain ⟨other, isOther, isLe⟩ : ∃ other ∈ jsonlLineTsMsUpperBound record.render,
          time.val ≤ other := by
        apply @le_upperBoundFrom_of_occurrence _ time.isLt none _ before after
        · rw [isRender, ← isNeedle]
          simp [Value.render, Number.render]
        · intro char isHead
          rcases ended with comma | brace
          · rw [Option.mem_def.mp isHead] at comma
            cases comma
            rfl
          · rw [Option.mem_def.mp isHead] at brace
            cases brace
            rfl
      rw [Option.mem_def.mp isOther] at isBound
      cases isBound
      rw [tsMs, isTime]
      exact isLe

/-! ### What a read visits -/

section Parse

variable (parse : List Char → Option Value)

/-- Every line that reads as a record is the compact writing of it. -/
def WrittenCompactly (text : Option (List Char)) : Prop :=
  ∀ line ∈ lines (text.getD []), ∀ record, parse (trim line) = some record →
    trim line = record.render

variable {parse}

theorem recordSince_none (line : List Char) :
    recordSince parse none line = if trim line = [] then none else parse (trim line) := by
  unfold recordSince
  simp only [Option.any_none]
  cases isRecord : parse (trim line) with
  | none => simp
  | some record => simp

/-- A line that the window leaves out holds no record of the window. -/
theorem recordSince_eq (since : Millis) {line : List Char}
    (compact : ∀ record, parse (trim line) = some record → trim line = record.render) :
    recordSince parse (some since) line =
      (recordSince parse none line).filter (fun record => since.val ≤ tsMs record) := by
  rw [recordSince_none]
  unfold recordSince
  by_cases blank : trim line = []
  · simp [blank]
  simp only [if_neg blank, Option.any_some]
  cases isRecord : parse (trim line) with
  | none => simp
  | some record =>
      by_cases isBefore : (jsonlLineTsMsUpperBound (trim line)).any (· < since.val) = true
      · rw [if_pos isBefore]
        obtain ⟨bound, isBound, isLt⟩ := (Option.any_eq_true _ _).mp isBefore
        rw [compact record isRecord] at isBound
        have isLe := tsMs_le_upperBound isBound
        have isEarly : ¬ since.val ≤ tsMs record := by
          have := of_decide_eq_true isLt
          omega
        simp [Option.filter, isEarly]
      · rw [if_neg isBefore]
        by_cases isEarly : tsMs record < since.val
        · simp [Option.filter, isEarly]
        · simp [Option.filter, isEarly, Nat.not_lt.mp isEarly]

theorem recordsSince_eq (since : Millis) {text : Option (List Char)}
    (compact : WrittenCompactly parse text) :
    recordsSince parse (some since) text =
      (recordsSince parse none text).filter (fun record => since.val ≤ tsMs record) := by
  rw [recordsSince, recordsSince, List.filter_filterMap]
  apply List.filterMap_congr
  intro line member
  exact recordSince_eq since (compact line member)

/-- A generation that the window leaves out holds no record of the window. -/
theorem recordsSince_eq_nil {since : Millis} {generation : Generation}
    (compact : WrittenCompactly parse generation.text)
    (stamped : ∀ record ∈ recordsSince parse none generation.text,
      tsMs record ≤ generation.tsMs + jsonlWindowSlackMs)
    (left : generation.tsMs < since.val - jsonlWindowSlackMs) :
    recordsSince parse (some since) generation.text = [] := by
  rw [recordsSince_eq since compact, List.filter_eq_nil_iff]
  intro record member
  have isLe := stamped record member
  simp only [decide_eq_true_eq]
  omega

theorem flatMap_filter_of_nil {Item Result : Type} {items : List Item} {keeps : Item → Bool}
    {results : Item → List Result}
    (empty : ∀ item ∈ items, keeps item = false → results item = []) :
    (items.filter keeps).flatMap results = items.flatMap results := by
  induction items with
  | nil => rfl
  | cons item rest inductionHypothesis =>
      obtain ⟨itemEmpty, restEmpty⟩ := List.forall_mem_cons.mp empty
      rw [List.flatMap_cons, ← inductionHypothesis restEmpty]
      cases kept : keeps item with
      | true => rw [List.filter_cons_of_pos kept, List.flatMap_cons]
      | false => rw [List.filter_cons_of_neg (by simp [kept]), itemEmpty kept, List.nil_append]

theorem jsonlReadPathsSince_of_floor (stream : Stream) {since : Millis} {floor : Nat}
    (isFloor : since.val - jsonlWindowSlackMs = floor) :
    jsonlReadPathsSince stream (some since) =
      ((((listGenerations stream).mergeSort fun first second => first.tsMs ≤ second.tsMs).filter
        fun generation => floor ≤ generation.tsMs).map Generation.text) ++ [stream.live] := by
  have floors : (some since).map (fun since => since.val - jsonlWindowSlackMs) = some floor := by
    rw [Option.map_some, isFloor]
  unfold jsonlReadPathsSince
  rw [floors]
  rfl

end Parse

/-- The reading of the records of a list. -/
def readKnown (records : List Value) (text : List Char) : Option Value :=
  records.find? fun record => record.render = text

theorem writtenCompactly_readKnown (records : List Value) (text : Option (List Char)) :
    WrittenCompactly (readKnown records) text := by
  intro line _ record isRecord
  have isText := List.find?_some isRecord
  exact (of_decide_eq_true isText).symm

/-- A record with a time of its own and another in its payload. -/
def traced (time payload : Millis) : Value :=
  .object [("payload".toList, .object [("ts_ms".toList, .number (.unsigned payload))]),
    ("ts_ms".toList, .number (.unsigned time))]

/-- A stream with an old generation and a live file. -/
def eventTrace : Stream where
  name := "event-trace.jsonl".toList
  live := some ((traced 190000 210000).render ++ '\n' :: (traced 220000 5).render)
  directory := some [⟨"event-trace.g100000.jsonl".toList, some 100000,
    some (traced 90000 250000).render⟩]

end Yggterm.Retention
