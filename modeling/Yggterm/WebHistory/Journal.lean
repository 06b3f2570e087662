import Mathlib.Algebra.Ring.Nat
import Mathlib.Data.Char
import Mathlib.Data.Fin.Basic
import Mathlib.Data.List.Lex
import Mathlib.Data.List.Sort
import Mathlib.Data.Prod.Lex
import Mathlib.Order.MinMax
import Yggterm.Library.Json
import Yggterm.Library.Lines

/-!
# The browsing journal

`web_history.rs`: one visit a line, in visit order.  An import appends its visits when none
is older than the file, and otherwise rewrites the file with the new lines in their places.
The JSON of a line is a library's; what the journal relies on of it is `VisitCodec`.
-/

namespace Yggterm.WebHistory

open Text Json

/-- A `u64`. -/
abbrev Millis := Fin (2 ^ 64)

structure WebHistoryEntry where
  tsMs : Millis
  url : List Char
  title : List Char
  deriving DecidableEq

/-- The JSON of a visit and its reading.  A text that is not blank makes a line unreadable
when it stands before a visit: a JSON text is one value. -/
structure VisitCodec where
  toJson : WebHistoryEntry → List Char
  fromJson : List Char → Option WebHistoryEntry
  fromJson_toJson : ∀ visit, fromJson (toJson visit) = some visit
  newline_not_mem_toJson : ∀ visit, '\n' ∉ toJson visit
  trim_toJson : ∀ visit, trim (toJson visit) = toJson visit
  fromJson_nil : fromJson [] = none
  fromJson_append_toJson : ∀ text visit, trim text ≠ [] →
    fromJson (trim (text ++ toJson visit)) = none

/-- `web_history_url_is_page`. -/
def webHistoryUrlIsPage (url : List Char) : Bool :=
  "http://".toList.isPrefixOf url || "https://".toList.isPrefixOf url

structure HistoryWriteReport where
  appended : Nat
  duplicates : Nat
  skippedNotPage : Nat
  rewrote : Bool
  deriving DecidableEq

/-- What a visit is told apart by. -/
def WebHistoryEntry.key (visit : WebHistoryEntry) : List Char × Millis := (visit.url, visit.tsMs)

/-- The derived order: time, then address, then title. -/
def WebHistoryEntry.le (first second : WebHistoryEntry) : Bool :=
  decide (toLex (first.tsMs, toLex (first.url, first.title)) ≤
    toLex (second.tsMs, toLex (second.url, second.title)))

section Codec

variable (codec : VisitCodec)

/-- `from_jsonl_line`. -/
def fromJsonlLine (line : List Char) : Option WebHistoryEntry := codec.fromJson (trim line)

/-- `read_web_visits`. -/
def readWebVisits (text : List Char) : List WebHistoryEntry :=
  ((lines text).filter (fun line => trim line ≠ [])).filterMap (fromJsonlLine codec)

/-- The planner's loop: what was seen so far, what is fresh, and the report. -/
structure Plan where
  seen : List (List Char × Millis)
  fresh : List WebHistoryEntry
  report : HistoryWriteReport

def Plan.visit (plan : Plan) (visit : WebHistoryEntry) : Plan :=
  if webHistoryUrlIsPage visit.url = false then
    { plan with
      report := { plan.report with skippedNotPage := plan.report.skippedNotPage + 1 } }
  else if visit.key ∈ plan.seen then
    { plan with report := { plan.report with duplicates := plan.report.duplicates + 1 } }
  else { plan with seen := visit.key :: plan.seen, fresh := plan.fresh ++ [visit] }

/-- The page visits of a batch that are not among the seen ones, the first of each key. -/
def freshVisits (seen : List (List Char × Millis)) : List WebHistoryEntry → List WebHistoryEntry
  | [] => []
  | visit :: rest =>
      if webHistoryUrlIsPage visit.url = true ∧ visit.key ∉ seen then
        visit :: freshVisits (visit.key :: seen) rest
      else freshVisits seen rest

/-- Filter to pages, drop what the file or the batch already holds, and sort. -/
def planWrite (text : List Char) (visits : List WebHistoryEntry) :
    List WebHistoryEntry × HistoryWriteReport :=
  let plan := visits.foldl Plan.visit
    ⟨(readWebVisits codec text).map WebHistoryEntry.key, [], ⟨0, 0, 0, false⟩⟩
  (plan.fresh.mergeSort WebHistoryEntry.le, plan.report)

/-- `append_lines`. -/
def appendLines (text : List Char) (visits : List WebHistoryEntry) : List Char :=
  text ++ visits.flatMap (fun visit => codec.toJson visit ++ ['\n'])

/-- The lines of the rewritten file: before each line that is not blank, the pending visits
that are no later than the last visit read. -/
def rewriteLines : List (List Char) → List WebHistoryEntry → Millis → List (List Char)
  | [], pending, _ => pending.map codec.toJson
  | line :: rest, pending, carriedTs =>
      if trim line = [] then [] :: rewriteLines rest pending carriedTs
      else
        let carriedTs := ((fromJsonlLine codec line).map WebHistoryEntry.tsMs).getD carriedTs
        (pending.takeWhile (fun next => next.tsMs ≤ carriedTs)).map codec.toJson ++
          line :: rewriteLines rest (pending.dropWhile (fun next => next.tsMs ≤ carriedTs)) carriedTs

/-- The import: the journal after it, and what it reports. -/
def mergeWebVisits (text : List Char) (visits : List WebHistoryEntry) :
    List Char × HistoryWriteReport :=
  let (fresh, report) := planWrite codec text visits
  match fresh with
  | [] => (text, report)
  | oldest :: _ =>
      let newestExisting := (((lines text).filterMap (fromJsonlLine codec)).map
        WebHistoryEntry.tsMs).max?
      if newestExisting.all (fun newest => newest ≤ oldest.tsMs) then
        (appendLines codec text fresh, { report with appended := fresh.length })
      else
        ((rewriteLines codec (lines text) fresh 0).flatMap (· ++ ['\n']),
          { report with appended := fresh.length, rewrote := true })

end Codec

/-! ## The lines of the journal

A visit as `to_jsonl_line` writes it, its keys in their order, and the reading of such a
line.  Nothing can stand before a visit on its line: the ten bare quotes of a visit are all
that the reading takes. -/

/-- `to_jsonl_line`. -/
def writeVisit (visit : WebHistoryEntry) : List Char :=
  "\x7b\"title\":\"".toList ++ (escape visit.title ++ '"' ::
    (",\"ts_ms\":".toList ++ (Nat.toDigits 10 visit.tsMs ++
      (",\"url\":\"".toList ++ (escape visit.url ++ '"' :: ['}'])))))

def stripStart (front text : List Char) : Option (List Char) :=
  if front <+: text then some (text.drop front.length) else none

def readVisit (text : List Char) : Option WebHistoryEntry := do
  let text ← stripStart "\x7b\"title\":\"".toList text
  let (title, text) ← readString .inside text
  let text ← stripStart ",\"ts_ms\":".toList text
  let tsMs ← parseUnsigned 64 (text.takeWhile Char.isDigit)
  let text ← stripStart ",\"url\":\"".toList (text.dropWhile Char.isDigit)
  let (url, text) ← readString .inside text
  if text = ['}'] then some ⟨Fin.ofNat _ tsMs, url, title⟩ else none

theorem stripStart_append (front text : List Char) :
    stripStart front (front ++ text) = some text := by
  rw [stripStart, if_pos (List.prefix_append front text), List.drop_left]

theorem eq_append_of_stripStart {front text rest : List Char}
    (stripped : stripStart front text = some rest) : text = front ++ rest := by
  rw [stripStart] at stripped
  split at stripped
  · next isFront =>
      cases stripped
      exact (List.prefix_iff_eq_append.mp isFront).symm
  · cases stripped

theorem readVisit_writeVisit (visit : WebHistoryEntry) :
    readVisit (writeVisit visit) = some visit := by
  have isDigits : ∀ char ∈ Nat.toDigits 10 visit.tsMs, char.isDigit = true :=
    fun char member => Nat.isDigit_of_mem_toDigits (by decide) (by decide) member
  have taken : ∀ rest, (Nat.toDigits 10 visit.tsMs ++ (",\"url\":\"".toList ++ rest)).takeWhile
      Char.isDigit = Nat.toDigits 10 visit.tsMs := by
    intro rest
    rw [List.takeWhile_append_of_pos isDigits]
    simp
  have dropped : ∀ rest, (Nat.toDigits 10 visit.tsMs ++ (",\"url\":\"".toList ++ rest)).dropWhile
      Char.isDigit = ",\"url\":\"".toList ++ rest := by
    intro rest
    rw [List.dropWhile_append_of_pos isDigits]
    rfl
  have isTime : parseUnsigned 64 (Nat.toDigits 10 visit.tsMs) = some visit.tsMs.val := by
    rw [parseUnsigned_toDigits, if_pos visit.tsMs.isLt]
  unfold readVisit writeVisit
  simp only [stripStart_append, readString_escape, taken, dropped, isTime, Option.bind_eq_bind,
    Option.bind_some, if_true]
  rw [Fin.ofNat_val_eq_self]

/-- A text that reads as a visit begins with a brace and a quote and has ten bare quotes. -/
theorem bareQuotes_of_readVisit {text : List Char} {visit : WebHistoryEntry}
    (isRead : readVisit text = some visit) :
    bareQuotes text = 10 ∧ ∃ rest, text = '{' :: '"' :: rest := by
  simp only [readVisit, Option.bind_eq_bind, Option.bind_eq_some_iff] at isRead
  obtain ⟨first, isFirst, ⟨title, second⟩, isSecond, third, isThird, tsMs, _, fourth, isFourth,
    ⟨url, last⟩, isUrl, isLast⟩ := isRead
  obtain rfl : last = ['}'] := by
    by_contra other
    simp [other] at isLast
  simp only at isThird
  have isText := eq_append_of_stripStart isFirst
  have titleQuotes := bareQuotes_readString isSecond
  have timeQuotes : bareQuotes second = 2 + bareQuotes third := by
    rw [eq_append_of_stripStart isThird, bareQuotes_append_of_not_mem (by decide)]
    rfl
  have digitQuotes : bareQuotes third = bareQuotes (third.dropWhile Char.isDigit) := by
    have digits : ∀ char ∈ third.takeWhile Char.isDigit, char.isDigit = true :=
      fun char member => List.mem_takeWhile_imp member
    have noQuote : (third.takeWhile Char.isDigit).count '"' = 0 :=
      List.count_eq_zero.mpr fun member => absurd (digits _ member) (by decide)
    conv_lhs => rw [← @List.takeWhile_append_dropWhile _ Char.isDigit third]
    rw [bareQuotes_append_of_not_mem fun member => absurd (digits _ member) (by decide), noQuote,
      Nat.zero_add]
  have urlKeyQuotes : bareQuotes (third.dropWhile Char.isDigit) = 3 + bareQuotes fourth := by
    rw [eq_append_of_stripStart isFourth, bareQuotes_append_of_not_mem (by decide)]
    rfl
  have urlQuotes := bareQuotes_readString isUrl
  have isEnd : bareQuotes ['}'] = 0 := by decide
  constructor
  · rw [isText, bareQuotes_append_of_not_mem (by decide)]
    have isFront : "\x7b\"title\":\"".toList.count '"' = 3 := by decide
    simp only [Reading.passed, List.nil_append] at titleQuotes urlQuotes
    omega
  · exact ⟨_, isText⟩

/-- No line that holds more than a visit reads as one. -/
theorem readVisit_append_writeVisit {front : List Char} (nonempty : front ≠ [])
    (visit : WebHistoryEntry) : readVisit (front ++ writeVisit visit) = none := by
  cases isRead : readVisit (front ++ writeVisit visit) with
  | none => rfl
  | some other =>
      obtain ⟨allQuotes, rest, isText⟩ := bareQuotes_of_readVisit isRead
      obtain ⟨visitQuotes, visitRest, isVisit⟩ :=
        bareQuotes_of_readVisit (readVisit_writeVisit visit)
      rw [isVisit] at allQuotes visitQuotes isText
      rw [bareQuotes_append (by decide) (by decide), visitQuotes] at allQuotes
      -- so what stands before has no bare quote, and is the brace alone
      match front, nonempty with
      | [brace], _ => cases isText
      | brace :: quote :: others, _ =>
          cases isText
          rw [bareQuotes_cons (by decide), bareQuotes_cons (by decide)] at allQuotes
          simp at allQuotes

theorem exists_writeVisit (visit : WebHistoryEntry) :
    ∃ inside, writeVisit visit = '{' :: inside ++ ['}'] ∧ '\n' ∉ inside := by
  have noNewline : ∀ text, '\n' ∉ escape text := fun text member =>
    absurd (toNat_of_mem_escape member) (by decide)
  have noDigit : '\n' ∉ Nat.toDigits 10 visit.tsMs := fun member =>
    absurd (Nat.isDigit_of_mem_toDigits (by decide) (by decide) member) (by decide)
  refine ⟨"\"title\":\"".toList ++ (escape visit.title ++ '"' :: (",\"ts_ms\":".toList ++
    (Nat.toDigits 10 visit.tsMs ++ (",\"url\":\"".toList ++ (escape visit.url ++ ['"']))))), ?_, ?_⟩
  · have isFront : "\x7b\"title\":\"".toList = '{' :: "\"title\":\"".toList := by decide
    unfold writeVisit
    rw [isFront]
    simp only [List.append_assoc, List.cons_append, List.nil_append]
  · have noKey : '\n' ∉ "\"title\":\"".toList ∧ '\n' ∉ ",\"ts_ms\":".toList ∧
        '\n' ∉ ",\"url\":\"".toList := by decide
    simp only [List.mem_append, List.mem_cons, noKey, noNewline, noDigit, false_or]
    decide

/-- The codec of the journal's own lines. -/
def visitCodec : VisitCodec where
  toJson := writeVisit
  fromJson := readVisit
  fromJson_toJson := readVisit_writeVisit
  newline_not_mem_toJson visit := by
    obtain ⟨inside, isText, clean⟩ := exists_writeVisit visit
    simp [isText, clean]
  trim_toJson visit := by
    obtain ⟨inside, isText, clean⟩ := exists_writeVisit visit
    rw [isText, trim_concat_of_solid (by decide)]
    exact List.dropWhile_cons_of_neg (by decide)
  fromJson_nil := by decide
  fromJson_append_toJson := by
    intro front visit solid
    obtain ⟨inside, isText, clean⟩ := exists_writeVisit visit
    have started : front.dropWhile isWhitespace ≠ [] := by
      intro empty
      rw [trim, empty] at solid
      exact solid rfl
    have isTrimmed : trim (front ++ writeVisit visit) =
        front.dropWhile isWhitespace ++ writeVisit visit := by
      conv_lhs => rw [isText, ← List.append_assoc, trim_concat_of_solid (by decide),
        List.append_assoc, ← isText, List.dropWhile_append]
      simp [started]
    rw [isTrimmed]
    exact readVisit_append_writeVisit started visit

end Yggterm.WebHistory
