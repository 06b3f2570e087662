import Yggterm.Library.Echoes
import Yggterm.Library.Search
import Yggterm.Transcripts.Records

/-!
# The messages of a rollout

The readers of messages go through the lines of a rollout and keep the entries that are messages,
but not one that says what the message before it says.  The whole reader and the one with a limit
read from the front, and the tail reader holds the last few.
-/

namespace Yggterm.Transcripts

open AttachSeed (splitWhitespace)
open Echoes Search Text

structure TranscriptMessage where
  role : TranscriptRole
  timestamp : Option (List Char)
  lines : List (List Char)
  deriving DecidableEq

/-! ## What a message says -/

def imageMarker : List Char := "<image name=[".toList

def labelEnd : List Char := "]>".toList

/-- What follows a word and blanks, where the text begins with the word. -/
def skipWord (word text : List Char) : List Char :=
  if word.isPrefixOf text then trimStart (text.drop word.length) else text

theorem length_trimStart_le (text : List Char) : (trimStart text).length ≤ text.length :=
  (List.dropWhile_suffix _).length_le

theorem length_skipWord_le (word text : List Char) : (skipWord word text).length ≤ text.length := by
  rw [skipWord]
  split
  · exact (length_trimStart_le _).trans (List.drop_suffix _ _).length_le
  · exact Nat.le_refl _

/-- The label in brackets, once. -/
def imageLabel (label : List Char) : List Char := '[' :: (trim label ++ [']'])

def behindImage (label after : List Char) : List Char :=
  skipWord (imageLabel label) (skipWord "</image>".toList (trimStart after))

theorem length_behindImage_le (label after : List Char) :
    (behindImage label after).length ≤ after.length :=
  (length_skipWord_le _ _).trans ((length_skipWord_le _ _).trans (length_trimStart_le after))

def collapseImages (remaining : List Char) : List Char :=
  match _found : findText imageMarker remaining with
  | none => remaining
  | some (before, after) =>
      match _ends : findText labelEnd after with
      | none => remaining
      | some (label, rest) => before ++ imageLabel label ++ collapseImages (behindImage label rest)
termination_by remaining.length
decreasing_by
  have shorter := length_lt_of_findText (by decide) _found
  have later := length_lt_of_findText (by decide) _ends
  have behind := length_behindImage_le label rest
  omega

def collapseNamedImageMarkup (text : List Char) : List Char := collapseImages (trim text)

def normalizeGenerationSemanticText (text : List Char) : List Char :=
  trim ([' '].intercalate (splitWhitespace (collapseNamedImageMarkup text)))

/-- `{role:?}` -/
def TranscriptRole.debugName : TranscriptRole → List Char
  | .user => "User".toList
  | .assistant => "Assistant".toList
  | .system => "System".toList

def normalizedTranscriptMessageKey (role : TranscriptRole) (lines : List (List Char)) :
    List Char :=
  role.debugName ++ ':' :: normalizeGenerationSemanticText (['\n'].intercalate lines)

/-! ## The readers -/

/-- The last message says the same. -/
def repeatsLast (messages : List TranscriptMessage) (role : TranscriptRole)
    (lines : List (List Char)) : Bool :=
  messages.getLast?.any fun last => last.role = role &&
    normalizedTranscriptMessageKey last.role last.lines = normalizedTranscriptMessageKey role lines

def pushMessageLines (messages : List TranscriptMessage) (role : TranscriptRole)
    (lines : List (List Char)) (timestamp : Option (List Char)) : List TranscriptMessage :=
  if lines = [] then messages
  else if repeatsLast messages role lines then messages
  else messages ++ [TranscriptMessage.mk role timestamp lines]

/-- The first messages are dropped while there are too many. -/
def pushMessageLinesDeque (messages : List TranscriptMessage) (role : TranscriptRole)
    (lines : List (List Char)) (timestamp : Option (List Char)) (maxMessages : Nat) :
    List TranscriptMessage :=
  if lines = [] then messages
  else if repeatsLast messages role lines then messages
  else (messages ++ [TranscriptMessage.mk role timestamp lines]).rtake maxMessages

/-- A line that does not parse is skipped. -/
def entriesOfLine (serde : Serde) (line : List Char) : List TranscriptEntry :=
  match serde.fromStr line with
  | none => []
  | some value => codexEntriesFromRecord serde value []

/-- The next entry; the reader returns early once it has enough. -/
def readEntry (maxMessages : Option Nat) (messages : List TranscriptMessage)
    (entry : TranscriptEntry) : Except (List TranscriptMessage) (List TranscriptMessage) :=
  if entry.kind ≠ .message then .ok messages
  else
    let pushed := pushMessageLines messages entry.role entry.lines entry.timestamp
    if maxMessages.any fun limit => limit ≤ pushed.length then .error pushed else .ok pushed

/-- What is returned, early or not. -/
def returned : Except (List TranscriptMessage) (List TranscriptMessage) → List TranscriptMessage
  | .ok messages => messages
  | .error messages => messages

/-- The file is valid UTF-8. -/
def readCodexTranscriptMessagesWithLimit (serde : Serde) (maxMessages : Option Nat)
    (text : List Char) : List TranscriptMessage :=
  returned <| (lines text).foldlM
    (fun messages line => (entriesOfLine serde line).foldlM (readEntry maxMessages) messages) []

def readCodexTranscriptMessages (serde : Serde) (text : List Char) : List TranscriptMessage :=
  readCodexTranscriptMessagesWithLimit serde none text

def readCodexTranscriptMessagesLimited (serde : Serde) (maxMessages : Nat) (text : List Char) :
    List TranscriptMessage :=
  readCodexTranscriptMessagesWithLimit serde (some maxMessages) text

def readEntryDeque (maxMessages : Nat) (messages : List TranscriptMessage)
    (entry : TranscriptEntry) : List TranscriptMessage :=
  if entry.kind ≠ .message then messages
  else pushMessageLinesDeque messages entry.role entry.lines entry.timestamp maxMessages

def parseTranscriptMessageLines (serde : Serde) (lines : List (List Char)) (maxMessages : Nat) :
    List TranscriptMessage :=
  lines.foldl
    (fun messages line => (entriesOfLine serde line).foldl (readEntryDeque maxMessages) messages) []

/-! ## What they read -/

/-- The message of an entry. -/
def spoken (entry : TranscriptEntry) : Option TranscriptMessage :=
  if entry.kind = .message then some ⟨entry.role, entry.timestamp, entry.lines⟩ else none

/-- All messages that some lines carry, repeated or not. -/
def spokenIn (serde : Serde) (lines : List (List Char)) : List TranscriptMessage :=
  (lines.flatMap (entriesOfLine serde)).filterMap spoken

def messageKey (message : TranscriptMessage) : TranscriptRole × List Char :=
  (message.role, normalizedTranscriptMessageKey message.role message.lines)

theorem spokenIn_append (serde : Serde) (first second : List (List Char)) :
    spokenIn serde (first ++ second) = spokenIn serde first ++ spokenIn serde second := by
  rw [spokenIn, List.flatMap_append, List.filterMap_append]
  rfl

theorem repeatsLast_eq (messages : List TranscriptMessage) (message : TranscriptMessage) :
    repeatsLast messages message.role message.lines = isEcho messageKey messages message := by
  rw [repeatsLast, isEcho]
  congr 1
  funext last
  simp [messageKey]

theorem pushMessageLines_eq {message : TranscriptMessage} (nonempty : message.lines ≠ [])
    (messages : List TranscriptMessage) :
    pushMessageLines messages message.role message.lines message.timestamp =
      push messageKey messages message := by
  rw [pushMessageLines, if_neg nonempty, repeatsLast_eq, push]

theorem pushMessageLinesDeque_eq {message : TranscriptMessage} (nonempty : message.lines ≠ [])
    (maxMessages : Nat) (messages : List TranscriptMessage) :
    pushMessageLinesDeque messages message.role message.lines message.timestamp maxMessages =
      pushBounded messageKey maxMessages messages message := by
  rw [pushMessageLinesDeque, if_neg nonempty, repeatsLast_eq, pushBounded]

/-! ## No message is empty -/

/-- An entry that is a message says something. -/
def Voiced (entry : TranscriptEntry) : Prop := entry.kind = .message → entry.lines ≠ []

theorem voiced_pushMessage {out : List TranscriptEntry} (voiced : ∀ entry ∈ out, Voiced entry)
    (role : TranscriptRole) (lines : List (List Char)) (timestamp : Option (List Char)) :
    ∀ entry ∈ pushMessage out role lines timestamp, Voiced entry := by
  intro entry member
  rw [pushMessage] at member
  split at member
  · exact voiced entry member
  · next nonempty =>
      rcases List.mem_append.mp member with earlier | here
      · exact voiced entry earlier
      · rw [List.mem_singleton.mp here]
        exact fun _ => nonempty

theorem voiced_modifyFirst {test : TranscriptEntry → Bool}
    {change : TranscriptEntry → TranscriptEntry}
    (keeps : ∀ entry, Voiced entry → Voiced (change entry)) {out : List TranscriptEntry}
    (voiced : ∀ entry ∈ out, Voiced entry) :
    ∀ entry ∈ modifyFirst test change out, Voiced entry := by
  induction out with
  | nil => exact voiced
  | cons first rest inductionHypothesis =>
      obtain ⟨firstVoiced, restVoiced⟩ := List.forall_mem_cons.mp voiced
      rw [modifyFirst]
      split
      · exact List.forall_mem_cons.mpr ⟨keeps first firstVoiced, restVoiced⟩
      · exact List.forall_mem_cons.mpr ⟨firstVoiced, inductionHypothesis restVoiced⟩

theorem voiced_modifyToolCall {out : List TranscriptEntry} (voiced : ∀ entry ∈ out, Voiced entry)
    (callId : Option (List Char)) (change : TranscriptToolCall → TranscriptToolCall) :
    ∀ entry ∈ modifyToolCall out callId change, Voiced entry := by
  rw [modifyToolCall]
  intro entry member
  refine voiced_modifyFirst ?_ ?_ entry (List.mem_reverse.mp member)
  · exact fun _ kept => kept
  · exact fun other isOther => voiced other (List.mem_reverse.mp isOther)

theorem voiced_append_other {out : List TranscriptEntry} (voiced : ∀ entry ∈ out, Voiced entry)
    {last : TranscriptEntry} (other : last.kind ≠ .message) :
    ∀ entry ∈ out ++ [last], Voiced entry := by
  intro entry member
  rcases List.mem_append.mp member with earlier | here
  · exact voiced entry earlier
  · rw [List.mem_singleton.mp here]
    exact fun isMessage => absurd isMessage other

section Decode

variable (serde : Serde) {out : List TranscriptEntry} (voiced : ∀ entry ∈ out, Voiced entry)
include voiced

theorem voiced_responseItemEntries (payload : Json.Value) (timestamp : Option (List Char)) :
    ∀ entry ∈ responseItemEntries serde payload timestamp out, Voiced entry := by
  unfold responseItemEntries
  dsimp only
  split_ifs
  · exact voiced_pushMessage voiced _ _ _
  · exact voiced
  · exact voiced_append_other voiced nofun
  · exact voiced_append_other voiced nofun
  · exact voiced_append_other voiced nofun
  · exact voiced_append_other voiced nofun
  · rw [attachToolOutput]
    split
    · exact voiced
    · exact voiced_modifyToolCall voiced _ _
  · exact voiced

theorem voiced_compactedEntries (value : Json.Value) (recordTimestamp : Option (List Char)) :
    ∀ entry ∈ compactedEntries value recordTimestamp out, Voiced entry := by
  unfold compactedEntries
  exact List.foldlRecOn (motive := fun out => ∀ entry ∈ out, Voiced entry) _ _ voiced
    fun _ kept _ _ => voiced_pushMessage kept _ _ _

theorem voiced_eventMsgEntries (payload : Json.Value) (recordTimestamp : Option (List Char)) :
    ∀ entry ∈ eventMsgEntries payload recordTimestamp out, Voiced entry := by
  unfold eventMsgEntries
  split
  · split
    · exact voiced
    · exact voiced_modifyToolCall voiced _ _
  · split
    · exact voiced
    · exact voiced_pushMessage voiced _ _ _

/-- Decoding a record leaves no message empty. -/
theorem voiced_codexEntriesFromRecord (value : Json.Value) :
    ∀ entry ∈ codexEntriesFromRecord serde value out, Voiced entry := by
  unfold codexEntriesFromRecord
  dsimp only
  split_ifs
  · split
    · exact voiced
    · exact voiced_responseItemEntries serde voiced _ _
  · exact voiced_compactedEntries voiced _ _
  · split
    · exact voiced
    · exact voiced_eventMsgEntries voiced _ _
  · exact voiced

end Decode

theorem voiced_entriesOfLine (serde : Serde) (line : List Char) :
    ∀ entry ∈ entriesOfLine serde line, Voiced entry := by
  unfold entriesOfLine
  split
  · exact List.forall_mem_nil _
  · exact voiced_codexEntriesFromRecord serde (List.forall_mem_nil _) _

theorem voiced_flatMap_entriesOfLine (serde : Serde) (lines : List (List Char)) :
    ∀ entry ∈ lines.flatMap (entriesOfLine serde), Voiced entry := by
  intro entry member
  obtain ⟨line, _, inLine⟩ := List.mem_flatMap.mp member
  exact voiced_entriesOfLine serde line entry inLine

/-! ## Each reader as a reading of the messages -/

theorem foldlM_flatMap {Result Stop Line Entry : Type} (entries : Line → List Entry)
    (step : Result → Entry → Except Stop Result) (lines : List Line) (start : Result) :
    lines.foldlM (fun result line => (entries line).foldlM step result) start =
      (lines.flatMap entries).foldlM step start := by
  induction lines generalizing start with
  | nil => rfl
  | cons line rest inductionHypothesis =>
      rw [List.foldlM_cons, List.flatMap_cons, List.foldlM_append]
      congr 1
      funext result
      exact inductionHypothesis result

theorem readEntry_eq {entry : TranscriptEntry} (voiced : Voiced entry)
    (maxMessages : Option Nat) (messages : List TranscriptMessage) :
    readEntry maxMessages messages entry =
      match spoken entry with
      | none => .ok messages
      | some message =>
          if maxMessages.any fun limit => limit ≤ (push messageKey messages message).length then
            .error (push messageKey messages message)
          else .ok (push messageKey messages message) := by
  by_cases isMessage : entry.kind = .message
  · let message : TranscriptMessage := ⟨entry.role, entry.timestamp, entry.lines⟩
    have nonempty : message.lines ≠ [] := voiced isMessage
    have pushed : pushMessageLines messages entry.role entry.lines entry.timestamp =
        push messageKey messages message :=
      pushMessageLines_eq nonempty messages
    rw [readEntry, if_neg (not_not.mpr isMessage), spoken, if_pos isMessage]
    dsimp only
    rw [pushed]
  · rw [readEntry, if_pos isMessage, spoken, if_neg isMessage]

theorem readEntryDeque_eq {entry : TranscriptEntry} (voiced : Voiced entry)
    (maxMessages : Nat) (messages : List TranscriptMessage) :
    readEntryDeque maxMessages messages entry =
      match spoken entry with
      | none => messages
      | some message => pushBounded messageKey maxMessages messages message := by
  by_cases isMessage : entry.kind = .message
  · rw [readEntryDeque, if_neg (not_not.mpr isMessage), spoken, if_pos isMessage]
    let message : TranscriptMessage := ⟨entry.role, entry.timestamp, entry.lines⟩
    have nonempty : message.lines ≠ [] := voiced isMessage
    exact pushMessageLinesDeque_eq nonempty maxMessages messages
  · rw [readEntryDeque, if_pos isMessage, spoken, if_neg isMessage]

section Entries

variable {entries : List TranscriptEntry} (voiced : ∀ entry ∈ entries, Voiced entry)
include voiced

theorem foldlM_readEntry_none (messages : List TranscriptMessage) :
    entries.foldlM (readEntry none) messages =
      .ok ((entries.filterMap spoken).foldl (push messageKey) messages) := by
  induction entries generalizing messages with
  | nil => rfl
  | cons entry rest inductionHypothesis =>
      obtain ⟨entryVoiced, restVoiced⟩ := List.forall_mem_cons.mp voiced
      rw [List.foldlM_cons, readEntry_eq entryVoiced]
      cases said : spoken entry with
      | none =>
          rw [List.filterMap_cons_none said]
          exact inductionHypothesis restVoiced messages
      | some message =>
          rw [List.filterMap_cons_some said]
          exact inductionHypothesis restVoiced _

theorem returned_foldlM_readEntry (limit : Nat) (messages : List TranscriptMessage) :
    returned (entries.foldlM (readEntry (some limit)) messages) =
      pushUntil messageKey limit messages (entries.filterMap spoken) := by
  induction entries generalizing messages with
  | nil => rfl
  | cons entry rest inductionHypothesis =>
      obtain ⟨entryVoiced, restVoiced⟩ := List.forall_mem_cons.mp voiced
      rw [List.foldlM_cons, readEntry_eq entryVoiced]
      cases said : spoken entry with
      | none =>
          rw [List.filterMap_cons_none said]
          exact inductionHypothesis restVoiced messages
      | some message =>
          rw [List.filterMap_cons_some said, pushUntil]
          by_cases enough : limit ≤ (push messageKey messages message).length
          · simp only [Option.any_some, enough, decide_true, if_true]
            rfl
          · simp only [Option.any_some, enough, decide_false, Bool.false_eq_true, if_false]
            exact inductionHypothesis restVoiced _

theorem foldl_readEntryDeque (maxMessages : Nat) (messages : List TranscriptMessage) :
    entries.foldl (readEntryDeque maxMessages) messages =
      (entries.filterMap spoken).foldl (pushBounded messageKey maxMessages) messages := by
  induction entries generalizing messages with
  | nil => rfl
  | cons entry rest inductionHypothesis =>
      obtain ⟨entryVoiced, restVoiced⟩ := List.forall_mem_cons.mp voiced
      rw [List.foldl_cons, readEntryDeque_eq entryVoiced, inductionHypothesis restVoiced]
      cases said : spoken entry with
      | none => rw [List.filterMap_cons_none said]
      | some message => rw [List.filterMap_cons_some said, List.foldl_cons]

end Entries

/-- The whole reader keeps the first of messages that repeat one another. -/
theorem readCodexTranscriptMessages_eq (serde : Serde) (text : List Char) :
    readCodexTranscriptMessages serde text = heads messageKey (spokenIn serde (lines text)) := by
  rw [readCodexTranscriptMessages, readCodexTranscriptMessagesWithLimit, foldlM_flatMap,
    foldlM_readEntry_none (voiced_flatMap_entriesOfLine serde (lines text)), foldl_push_nil]
  rfl

/-- The reader with a limit reads at least one message. -/
theorem readCodexTranscriptMessagesLimited_eq (serde : Serde) (limit : Nat) (text : List Char) :
    readCodexTranscriptMessagesLimited serde limit text =
      (readCodexTranscriptMessages serde text).take (max limit 1) := by
  rw [readCodexTranscriptMessagesLimited, readCodexTranscriptMessagesWithLimit, foldlM_flatMap,
    returned_foldlM_readEntry (voiced_flatMap_entriesOfLine serde (lines text)),
    pushUntil_nil, readCodexTranscriptMessages_eq]
  rfl

/-- The reader of a window takes the last few of what is there. -/
theorem parseTranscriptMessageLines_eq (serde : Serde) (lines : List (List Char)) (limit : Nat) :
    parseTranscriptMessageLines serde lines limit =
      (heads messageKey (spokenIn serde lines)).rtake limit := by
  rw [parseTranscriptMessageLines, ← List.foldl_flatMap,
    foldl_readEntryDeque (voiced_flatMap_entriesOfLine serde lines), foldl_pushBounded]
  rfl

end Yggterm.Transcripts
