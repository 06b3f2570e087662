import Mathlib.Data.List.DropRight
import Yggterm.AttachSeed.Classify
import Yggterm.Library.Json

/-!
# What is in a rollout record

A Codex rollout is a file of JSON records, one on a line (`yggterm-core/src/transcript.rs`).  All
readers decode a record with `codex_entries_from_record`: it yields the entries of the timeline
that the record carries, or puts the result of a tool on the call that was before it.

The parser of `serde_json` and its pretty printer are parameters.
-/

namespace Yggterm.Transcripts

open AttachSeed (contains toAsciiLowercase)
open Json Text

/-- `serde_json::from_str` and `to_string_pretty`. -/
structure Serde where
  fromStr : List Char → Option Value
  toStringPretty : Value → Option (List Char)

inductive TranscriptRole where
  | user | assistant | system
  deriving DecidableEq

inductive TranscriptEntryKind where
  | message | reasoning | toolCall
  deriving DecidableEq

structure TranscriptToolCall where
  tool : List Char := []
  headline : List Char := []
  detail : List (List Char) := []
  changedFiles : List (List Char) := []
  addedLines : Nat := 0
  removedLines : Nat := 0
  failed : Bool := false
  deriving DecidableEq

structure TranscriptEntry where
  kind : TranscriptEntryKind
  role : TranscriptRole
  timestamp : Option (List Char)
  lines : List (List Char)
  tool : Option TranscriptToolCall
  callId : Option (List Char)
  deriving DecidableEq

namespace TranscriptEntry

def message (role : TranscriptRole) (lines : List (List Char)) (timestamp : Option (List Char)) :
    TranscriptEntry where
  kind := .message
  role
  timestamp
  lines
  tool := none
  callId := none

def reasoning (lines : List (List Char)) (timestamp : Option (List Char)) : TranscriptEntry where
  kind := .reasoning
  role := .assistant
  timestamp
  lines
  tool := none
  callId := none

def toolCall (tool : TranscriptToolCall) (timestamp callId : Option (List Char)) :
    TranscriptEntry where
  kind := .toolCall
  role := .assistant
  timestamp
  lines := []
  tool := some tool
  callId

end TranscriptEntry

/-- A field that holds a string. -/
def strField (key : String) (value : Value) : Option (List Char) :=
  (value.get key.toList).bind Value.asStr

def hasType (value : Value) (name : String) : Bool := strField "type" value = some name.toList

def extractTimestampRaw (value : Value) : Option (List Char) :=
  (strField "timestamp" value).or
    ((value.get "payload".toList).bind (strField "timestamp"))

def extractTextFragment (value : Value) : Option (List Char) :=
  value.asStr.or <| (strField "text" value).or <| (strField "input_text" value).or <|
    (strField "output_text" value).or <| (strField "content" value).or (strField "value" value)

/-! ## Text of messages -/

def scaffoldNeedles : List String :=
  ["<turn_id>", "</turn_id>", "<reason>", "</reason>", "<guidance>", "</guidance>",
    "<turn_aborted>", "</turn_aborted>", "the user interrupted the previous turn on purpose",
    "any running unified exec processes were terminated"]

def previewTranscriptScaffoldLine (line : List Char) : Bool :=
  let lower := toAsciiLowercase (trim line)
  lower ≠ [] && scaffoldNeedles.any fun needle =>
    needle.toList.isPrefixOf lower || contains lower needle

/-- Runs of blank lines are one blank line, and none comes first. -/
def pushPreviewLine (kept : List (List Char)) (raw : List Char) : List (List Char) :=
  if previewTranscriptScaffoldLine raw then kept
  else
    let line := trimEnd raw
    if trim line = [] then
      if kept.getLast?.all fun last => trim last = [] then kept else kept ++ [[]]
    else kept ++ [line]

def normalizePreviewText (text : List Char) : List (List Char) :=
  ((lines text).foldl pushPreviewLine []).rdropWhile fun line => trim line = []

/-- The lines of the text fragments among some items. -/
def fragmentLines (items : List Value) : List (List Char) :=
  (items.filterMap extractTextFragment).flatMap normalizePreviewText

def messageLinesFromPayload (payload : Value) : List (List Char) :=
  ((strField "content" payload).map normalizePreviewText).getD [] ++
    fragmentLines (((payload.get "content".toList).bind Value.asArray).getD [])

def normalizedMessageRole (payload : Value) : TranscriptRole :=
  let role := (strField "role" payload).getD "assistant".toList
  if role = "user".toList then .user
  else if role = "assistant".toList then .assistant
  else .system

def eventMessageRoleAndText (payload : Value) : Option (TranscriptRole × List Char) :=
  if hasType payload "user_message" then
    (strField "message" payload).map fun text => (.user, text)
  else if hasType payload "agent_message" then
    (strField "message" payload).map fun text => (.assistant, text)
  else none

/-! ## Tool calls -/

/-- What follows a word, where the text begins with it. -/
def stripPrefix (word : String) (text : List Char) : Option (List Char) :=
  if word.toList.isPrefixOf text then some (text.drop word.toList.length) else none

def headlineUnder (parsed : Value) (key : String) : Option (List Char) :=
  match parsed.get key.toList with
  | some (.string text) => some (trim text)
  | some (.array items) =>
      let joined := [' '].intercalate (items.filterMap Value.asStr)
      if trim joined = [] then none else some joined
  | _ => none

def firstArgumentHeadline (parsed : Value) : Option (List Char) :=
  ["cmd", "command", "file_path", "path", "query", "description"].findSome? (headlineUnder parsed)

def patchedFile (line : List Char) : Option (List Char) :=
  (stripPrefix "*** " (trim line)).bind fun rest =>
    ["Add File: ", "Update File: ", "Delete File: ", "Move to: "].findSome? fun marker =>
      (stripPrefix marker rest).map trim

def applyPatchFiles (patch : List Char) : List (List Char) := (lines patch).filterMap patchedFile

/-- The arguments are JSON, or free text. -/
def codexToolCall (serde : Serde) (name arguments : List Char) : TranscriptToolCall :=
  match serde.fromStr arguments with
  | some parsed =>
      { tool := name
        headline := (firstArgumentHeadline parsed).getD []
        detail := normalizePreviewText ((serde.toStringPretty parsed).getD arguments) }
  | none =>
      { tool := name
        headline := trim ((lines arguments).head?.getD [])
        detail := normalizePreviewText arguments
        changedFiles := applyPatchFiles arguments }

/-- The added and the removed lines of a diff, without its headers. -/
def unifiedDiffStat (diff : List Char) : Nat × Nat :=
  let changes := (lines diff).filter fun line =>
    !"+++".toList.isPrefixOf line && !"---".toList.isPrefixOf line
  (changes.countP fun line => line.head? = some '+',
    changes.countP fun line => line.head? = some '-')

def toolOutputLines (output : Option Value) : List (List Char) :=
  match output with
  | none => []
  | some (.string text) => normalizePreviewText text
  | some (.array items) => fragmentLines items
  | some output => ((extractTextFragment output).map normalizePreviewText).getD []

def toolOutputLineBudget : Nat := 40

def clampToolOutput (lines : List (List Char)) : List (List Char) :=
  if toolOutputLineBudget < lines.length then
    lines.take toolOutputLineBudget ++
      ["… ".toList ++ Nat.toDigits 10 (lines.length - toolOutputLineBudget) ++
        " more lines".toList]
  else lines

def modifyFirst (test : TranscriptEntry → Bool) (change : TranscriptEntry → TranscriptEntry) :
    List TranscriptEntry → List TranscriptEntry
  | [] => []
  | entry :: rest =>
      if test entry then change entry :: rest else entry :: modifyFirst test change rest

/-- The last tool call, of those with the id if there is one (`find_tool_call_mut`). -/
def modifyToolCall (out : List TranscriptEntry) (callId : Option (List Char))
    (change : TranscriptToolCall → TranscriptToolCall) : List TranscriptEntry :=
  (modifyFirst
    (fun entry => entry.kind = .toolCall && callId.all fun id => entry.callId = some id)
    (fun entry => { entry with tool := entry.tool.map change }) out.reverse).reverse

def attachToolOutput (out : List TranscriptEntry) (callId : Option (List Char))
    (lines : List (List Char)) : List TranscriptEntry :=
  if lines = [] then out
  else modifyToolCall out callId fun tool => { tool with detail := clampToolOutput lines }

def attachToolChangeStat (out : List TranscriptEntry) (callId : Option (List Char))
    (files : List (List Char)) (added removed : Nat) (failed : Bool) : List TranscriptEntry :=
  modifyToolCall out callId fun tool =>
    { tool with changedFiles := files, addedLines := added, removedLines := removed, failed }

/-- The lines that a change adds and removes. -/
def changeStat (change : Value) : Nat × Nat :=
  match strField "unified_diff" change with
  | some diff => unifiedDiffStat diff
  | none => (((strField "content" change).map fun content => (lines content).length).getD 0, 0)

/-! ## Records -/

def pushMessage (out : List TranscriptEntry) (role : TranscriptRole) (lines : List (List Char))
    (timestamp : Option (List Char)) : List TranscriptEntry :=
  if lines = [] then out else out ++ [.message role lines timestamp]

def responseItemEntries (serde : Serde) (payload : Value) (timestamp : Option (List Char))
    (out : List TranscriptEntry) : List TranscriptEntry :=
  let callId := strField "call_id" payload
  let name := (strField "name" payload).getD "tool".toList
  let call (tool : TranscriptToolCall) := out ++ [.toolCall tool timestamp callId]
  if hasType payload "message" then
    pushMessage out (normalizedMessageRole payload) (messageLinesFromPayload payload) timestamp
  else if hasType payload "reasoning" then
    let lines := fragmentLines (((payload.get "summary".toList).bind Value.asArray).getD [])
    if lines = [] then out else out ++ [.reasoning lines timestamp]
  else if hasType payload "function_call" then
    call (codexToolCall serde name ((strField "arguments" payload).getD []))
  else if hasType payload "custom_tool_call" then
    call (codexToolCall serde name ((strField "input" payload).getD []))
  else if hasType payload "web_search_call" then
    call {
      tool := "web_search".toList
      headline := ((payload.get "action".toList).bind (strField "query")).getD [] }
  else if hasType payload "function_call_output" || hasType payload "custom_tool_call_output" then
    attachToolOutput out callId (toolOutputLines (payload.get "output".toList))
  else out

/-- A whole history is replayed. -/
def compactedEntries (value : Value) (recordTimestamp : Option (List Char))
    (out : List TranscriptEntry) : List TranscriptEntry :=
  let history := ((value.get "payload".toList).bind fun payload =>
    (payload.get "replacement_history".toList).bind Value.asArray).getD []
  (history.filter fun item => hasType item "message").foldl
    (fun out item => pushMessage out (normalizedMessageRole item) (messageLinesFromPayload item)
      ((extractTimestampRaw item).or recordTimestamp)) out

def eventMsgEntries (payload : Value) (recordTimestamp : Option (List Char))
    (out : List TranscriptEntry) : List TranscriptEntry :=
  if hasType payload "patch_apply_end" then
    match (payload.get "changes".toList).bind Value.asObject with
    | none => out
    | some changes =>
        let stats := changes.map fun change => changeStat change.2
        attachToolChangeStat out (strField "call_id" payload) (changes.map Prod.fst)
          (stats.map Prod.fst).sum (stats.map Prod.snd).sum
          ((payload.get "success".toList).bind Value.asBool = some false)
  else
    match eventMessageRoleAndText payload with
    | none => out
    | some (role, text) => pushMessage out role (normalizePreviewText text) recordTimestamp

def codexEntriesFromRecord (serde : Serde) (value : Value) (out : List TranscriptEntry) :
    List TranscriptEntry :=
  let recordTimestamp := extractTimestampRaw value
  if hasType value "response_item" then
    match value.get "payload".toList with
    | none => out
    | some payload =>
        responseItemEntries serde payload ((extractTimestampRaw payload).or recordTimestamp) out
  else if hasType value "compacted" then compactedEntries value recordTimestamp out
  else if hasType value "event_msg" then
    match value.get "payload".toList with
    | none => out
    | some payload => eventMsgEntries payload recordTimestamp out
  else out

end Yggterm.Transcripts
