import Yggterm.Library.Lines
import Yggterm.Library.Utf8
import Yggterm.Transcripts.Messages

/-!
# The end of a rollout

The tail reader looks at the last bytes of the file, drops the line they begin in, and takes twice
as many bytes while it has too few messages.  A window that holds just as many messages as it is
asked for may begin among records that repeat one message, and then the first message it returns
is not the record of it that the whole reader keeps.
-/

namespace Yggterm.Transcripts

open Echoes Text Utf8

def initialWindowBytes : Nat := 2 * 1024 * 1024

def maxWindowBytes : Nat := 64 * 1024 * 1024

/-- The lines of a window; the first is dropped where the window does not begin the file. -/
def windowLines (bytes : List UInt8) (start : Nat) : List (List Char) :=
  let text := fromUtf8Lossy (bytes.drop start)
  if 0 < start then (lines text).drop 1 else lines text

/-- The loop over the windows, given some rounds. -/
def tailLoop (serde : Serde) (bytes : List UInt8) (maxMessages : Nat) :
    Nat → Nat → Option (List TranscriptMessage)
  | 0, _ => none
  | rounds + 1, window =>
      let start := bytes.length - window
      let messages := parseTranscriptMessageLines serde (windowLines bytes start) maxMessages
      if maxMessages ≤ messages.length ∨ start = 0 ∨ maxWindowBytes ≤ window then some messages
      else tailLoop serde bytes maxMessages rounds
        (min (min (window * 2) maxWindowBytes) (max bytes.length 1))

/-- `read_codex_transcript_messages_tail_limited`, from an initial window on. -/
def readCodexTranscriptMessagesTailLimited (serde : Serde) (initialWindow : Nat)
    (bytes : List UInt8) (maxMessages rounds : Nat) : Option (List TranscriptMessage) :=
  tailLoop serde bytes maxMessages rounds (min initialWindow (max bytes.length 1))

/-- What the readers with a limit should return: the last and the first messages. -/
def ReadsAgree (serde : Serde) (initialWindow maxMessages : Nat) (text : List Char) : Prop :=
  (∃ rounds, readCodexTranscriptMessagesTailLimited serde initialWindow (encode text) maxMessages
    rounds = some ((readCodexTranscriptMessages serde text).rtake maxMessages)) ∧
  readCodexTranscriptMessagesLimited serde maxMessages text =
    (readCodexTranscriptMessages serde text).take maxMessages

/-! ## Windows -/

/-- Where the window begins after some doublings. -/
def windowStart (text : List Char) (initialWindow doublings : Nat) : Nat :=
  (encode text).length - 2 ^ doublings * initialWindow

/-- The messages in the window, repeated or not. -/
def spokenSince (serde : Serde) (text : List Char) (start : Nat) : List TranscriptMessage :=
  spokenIn serde (windowLines (encode text) start)

/-- The messages before the window. -/
def spokenBefore (serde : Serde) (text : List Char) (start : Nat) : List TranscriptMessage :=
  spokenIn serde ((lines text).take
    ((lines text).length - (windowLines (encode text) start).length))

/-- The lines of a window are the last lines of the text. -/
theorem exists_before_windowLines (text : List Char) (start : Nat) :
    ∃ before, lines text = before ++ windowLines (encode text) start := by
  rcases Nat.eq_zero_or_pos start with rfl | inside
  · refine ⟨[], ?_⟩
    rw [windowLines, if_neg (Nat.lt_irrefl 0), List.drop_zero, fromUtf8Lossy_encode,
      List.nil_append]
  · obtain ⟨front, rest, count, isText, isWindow⟩ := exists_drop_encode text start
    have clean : '\n' ∉ List.replicate count replacement := by
      intro member
      exact absurd (List.eq_of_mem_replicate member) (by decide)
    obtain ⟨before, isLines⟩ := exists_lines_drop front clean rest
    refine ⟨before, ?_⟩
    rw [windowLines, if_pos inside, isWindow, isText, isLines]

theorem spoken_split (serde : Serde) (text : List Char) (start : Nat) :
    spokenIn serde (lines text) =
      spokenBefore serde text start ++ spokenSince serde text start := by
  obtain ⟨before, isLines⟩ := exists_before_windowLines text start
  rw [spokenBefore, spokenSince, ← spokenIn_append, isLines, List.length_append,
    Nat.add_sub_cancel, List.take_left]

theorem spokenSince_zero (serde : Serde) (text : List Char) :
    spokenSince serde text 0 = spokenIn serde (lines text) := by
  rw [spokenSince, windowLines, if_neg (Nat.lt_irrefl 0), List.drop_zero, fromUtf8Lossy_encode]

/-- A window of no bytes holds nothing. -/
theorem spokenSince_length (serde : Serde) (text : List Char) :
    spokenSince serde text (encode text).length = [] := by
  rw [spokenSince, windowLines, List.drop_length, fromUtf8Lossy_nil, lines_nil, List.drop_nil,
    ite_self]
  rfl

theorem eq_nil_of_encode {text : List Char} (empty : (encode text).length = 0) : text = [] := by
  rw [← fromUtf8Lossy_encode text, List.length_eq_zero_iff.mp empty, fromUtf8Lossy_nil]

/-! ## The loop -/

/-- A window of which the messages are enough, repeated ones not counted. -/
def HoldsEnough (serde : Serde) (initialWindow maxMessages : Nat) (text : List Char)
    (doublings : Nat) : Prop :=
  maxMessages ≤
    (heads messageKey (spokenSince serde text (windowStart text initialWindow doublings))).length

/-- The first window that holds enough begins among records that repeat one message. -/
def WindowCutsRun (serde : Serde) (initialWindow maxMessages : Nat) (text : List Char) : Prop :=
  ∃ doublings, HoldsEnough serde initialWindow maxMessages text doublings ∧
    (∀ fewer < doublings, ¬ HoldsEnough serde initialWindow maxMessages text fewer) ∧
    CutsRun messageKey maxMessages
      (spokenBefore serde text (windowStart text initialWindow doublings))
      (spokenSince serde text (windowStart text initialWindow doublings))

/-- The loop ends with this window. -/
def Stops (serde : Serde) (initialWindow maxMessages : Nat) (text : List Char) (doublings : Nat) :
    Prop :=
  HoldsEnough serde initialWindow maxMessages text doublings ∨
    windowStart text initialWindow doublings = 0

/-- What is read from a window. -/
def tailAt (serde : Serde) (initialWindow maxMessages : Nat) (text : List Char) (doublings : Nat) :
    List TranscriptMessage :=
  (heads messageKey (spokenSince serde text (windowStart text initialWindow doublings))).rtake
    maxMessages

def windowSize (text : List Char) (initialWindow doublings : Nat) : Nat :=
  min (2 ^ doublings * initialWindow) (max (encode text).length 1)

theorem sub_windowSize (text : List Char) (initialWindow doublings : Nat) :
    (encode text).length - windowSize text initialWindow doublings =
      windowStart text initialWindow doublings := by
  rw [windowSize, windowStart]
  omega

theorem parse_windowLines (serde : Serde) (initialWindow maxMessages : Nat) (text : List Char)
    (doublings : Nat) :
    parseTranscriptMessageLines serde
        (windowLines (encode text) (windowStart text initialWindow doublings)) maxMessages =
      tailAt serde initialWindow maxMessages text doublings :=
  parseTranscriptMessageLines_eq serde _ maxMessages

theorem le_length_tailAt_iff (serde : Serde) (initialWindow maxMessages : Nat) (text : List Char)
    (doublings : Nat) :
    maxMessages ≤ (tailAt serde initialWindow maxMessages text doublings).length ↔
      HoldsEnough serde initialWindow maxMessages text doublings := by
  rw [tailAt, length_rtake, Nat.le_min, HoldsEnough]
  exact and_iff_right (Nat.le_refl maxMessages)

theorem tailLoop_stop {serde : Serde} {initialWindow maxMessages : Nat} {text : List Char}
    {doublings : Nat} (stops : Stops serde initialWindow maxMessages text doublings)
    (rounds : Nat) :
    tailLoop serde (encode text) maxMessages (rounds + 1)
        (windowSize text initialWindow doublings) =
      some (tailAt serde initialWindow maxMessages text doublings) := by
  rw [tailLoop, sub_windowSize, parse_windowLines]
  apply if_pos
  rcases stops with enough | atStart
  · exact .inl ((le_length_tailAt_iff serde initialWindow maxMessages text doublings).mpr enough)
  · exact .inr (.inl atStart)

section Loop

variable (serde : Serde) (initialWindow maxMessages : Nat) {text : List Char}
  (small : (encode text).length ≤ maxWindowBytes)
include small

/-- No window is too large for the file. -/
theorem windowStart_eq_zero_of_full {doublings : Nat}
    (full : maxWindowBytes ≤ windowSize text initialWindow doublings) :
    windowStart text initialWindow doublings = 0 := by
  rw [← sub_windowSize]
  exact Nat.sub_eq_zero_of_le (small.trans full)

theorem windowSize_succ (doublings : Nat) :
    min (min (windowSize text initialWindow doublings * 2) maxWindowBytes)
        (max (encode text).length 1) = windowSize text initialWindow (doublings + 1) := by
  have doubled : 2 ^ (doublings + 1) * initialWindow = 2 ^ doublings * initialWindow * 2 := by
    rw [Nat.pow_succ, Nat.mul_right_comm]
  have positive : 1 ≤ maxWindowBytes := by decide
  rw [windowSize, windowSize, doubled]
  omega

theorem tailLoop_go {doublings : Nat}
    (goes : ¬ Stops serde initialWindow maxMessages text doublings) (rounds : Nat) :
    tailLoop serde (encode text) maxMessages (rounds + 1)
        (windowSize text initialWindow doublings) =
      tailLoop serde (encode text) maxMessages rounds
        (windowSize text initialWindow (doublings + 1)) := by
  rw [tailLoop, sub_windowSize, parse_windowLines, windowSize_succ initialWindow small]
  apply if_neg
  rintro (enough | atStart | full)
  · exact goes (.inl ((le_length_tailAt_iff _ _ _ _ _).mp enough))
  · exact goes (.inr atStart)
  · exact goes (.inr (windowStart_eq_zero_of_full initialWindow small full))

/-- The loop returns what it reads from the first window it stops with. -/
theorem tailLoop_eq_some_iff (rounds doublings : Nat) {messages : List TranscriptMessage} :
    tailLoop serde (encode text) maxMessages rounds (windowSize text initialWindow doublings) =
        some messages ↔
      ∃ more < rounds, Stops serde initialWindow maxMessages text (doublings + more) ∧
        (∀ fewer < more, ¬ Stops serde initialWindow maxMessages text (doublings + fewer)) ∧
        tailAt serde initialWindow maxMessages text (doublings + more) = messages := by
  induction rounds generalizing doublings with
  | zero => simp [tailLoop]
  | succ rounds inductionHypothesis =>
      by_cases stops : Stops serde initialWindow maxMessages text doublings
      · rw [tailLoop_stop stops, Option.some.injEq]
        constructor
        · intro same
          exact ⟨0, Nat.succ_pos rounds, stops, fun _ none => absurd none (Nat.not_lt_zero _), same⟩
        · rintro ⟨more, _, _, first, same⟩
          cases more with
          | zero => exact same
          | succ more => exact absurd stops (first 0 (Nat.succ_pos more))
      · rw [tailLoop_go serde initialWindow maxMessages small stops, inductionHypothesis]
        constructor
        · rintro ⟨more, inRounds, stopsThen, first, same⟩
          refine ⟨more + 1, Nat.succ_lt_succ inRounds, ?_, ?_, ?_⟩
          · rwa [← Nat.add_assoc, Nat.add_right_comm]
          · rintro (_ | fewer) before
            · exact stops
            · rw [← Nat.add_assoc, Nat.add_right_comm]
              exact first fewer (Nat.lt_of_succ_lt_succ before)
          · rwa [← Nat.add_assoc, Nat.add_right_comm]
        · rintro ⟨more, inRounds, stopsThen, first, same⟩
          cases more with
          | zero => exact absurd stopsThen stops
          | succ more =>
              refine ⟨more, Nat.lt_of_succ_lt_succ inRounds, ?_, ?_, ?_⟩
              · rwa [Nat.add_right_comm, Nat.add_assoc]
              · intro fewer before
                rw [Nat.add_right_comm, Nat.add_assoc]
                exact first (fewer + 1) (Nat.succ_lt_succ before)
              · rwa [Nat.add_right_comm, Nat.add_assoc]

/-- What the tail reader returns. -/
theorem tail_returns_iff {messages : List TranscriptMessage} :
    (∃ rounds, readCodexTranscriptMessagesTailLimited serde initialWindow (encode text) maxMessages
        rounds = some messages) ↔
      ∃ doublings, Stops serde initialWindow maxMessages text doublings ∧
        (∀ fewer < doublings, ¬ Stops serde initialWindow maxMessages text fewer) ∧
        tailAt serde initialWindow maxMessages text doublings = messages := by
  have first : min initialWindow (max (encode text).length 1) =
      windowSize text initialWindow 0 := by
    rw [windowSize, Nat.pow_zero, Nat.one_mul]
  simp only [readCodexTranscriptMessagesTailLimited, first,
    tailLoop_eq_some_iff serde initialWindow maxMessages small, Nat.zero_add]
  constructor
  · rintro ⟨_, doublings, _, returns⟩
    exact ⟨doublings, returns⟩
  · rintro ⟨doublings, returns⟩
    exact ⟨doublings + 1, doublings, Nat.lt_succ_self doublings, returns⟩

end Loop

/-- Some window holds enough or is the whole file, except where no window grows. -/
theorem exists_stops_iff (serde : Serde) (initialWindow maxMessages : Nat) (text : List Char) :
    (∃ doublings, Stops serde initialWindow maxMessages text doublings) ↔
      0 < initialWindow ∨ maxMessages = 0 ∨ text = [] := by
  constructor
  · rintro ⟨doublings, stops⟩
    rcases Nat.eq_zero_or_pos initialWindow with rfl | positive
    · refine .inr ?_
      have atEnd : windowStart text 0 doublings = (encode text).length := by
        rw [windowStart, Nat.mul_zero, Nat.sub_zero]
      rcases stops with enough | atStart
      · rw [HoldsEnough, atEnd, spokenSince_length] at enough
        exact .inl (Nat.le_zero.mp enough)
      · exact .inr (eq_nil_of_encode (atEnd.symm.trans atStart))
    · exact .inl positive
  · rintro (positive | none | empty)
    · refine ⟨(encode text).length, .inr ?_⟩
      apply Nat.sub_eq_zero_of_le
      calc (encode text).length ≤ 2 ^ (encode text).length := Nat.le_of_lt Nat.lt_two_pow_self
        _ ≤ 2 ^ (encode text).length * initialWindow := Nat.le_mul_of_pos_right _ positive
    · refine ⟨0, .inl ?_⟩
      rw [HoldsEnough, none]
      exact Nat.zero_le _
    · refine ⟨0, .inr ?_⟩
      rw [empty, windowStart]
      exact Nat.zero_sub _

/-- Once the whole file is in the window, it stays. -/
theorem windowStart_antitone (text : List Char) (initialWindow : Nat) {fewer more : Nat}
    (le : fewer ≤ more) :
    windowStart text initialWindow more ≤ windowStart text initialWindow fewer :=
  Nat.sub_le_sub_left (Nat.mul_le_mul_right _ (Nat.pow_le_pow_right Nat.two_pos le)) _

/-- The window that the loop stops with gives the last messages unless it cuts a run. -/
theorem tailAt_eq_iff (serde : Serde) (initialWindow maxMessages : Nat) {text : List Char}
    {doublings : Nat} (stops : Stops serde initialWindow maxMessages text doublings)
    (first : ∀ fewer < doublings, ¬ Stops serde initialWindow maxMessages text fewer) :
    tailAt serde initialWindow maxMessages text doublings =
        (readCodexTranscriptMessages serde text).rtake maxMessages ↔
      ¬ WindowCutsRun serde initialWindow maxMessages text := by
  by_cases enough : HoldsEnough serde initialWindow maxMessages text doublings
  · rw [readCodexTranscriptMessages_eq,
      spoken_split serde text (windowStart text initialWindow doublings), tailAt, eq_comm,
      rtake_heads_append_iff enough]
    apply not_congr
    constructor
    · intro cuts
      exact ⟨doublings, enough, fun fewer less => mt .inl (first fewer less), cuts⟩
    · rintro ⟨other, otherEnough, otherFirst, cuts⟩
      rcases Nat.lt_trichotomy other doublings with less | rfl | more
      · exact absurd (.inl otherEnough) (first other less)
      · exact cuts
      · exact absurd enough (otherFirst doublings more)
  · have atStart := stops.resolve_left enough
    apply iff_of_true
    · rw [tailAt, atStart, spokenSince_zero, readCodexTranscriptMessages_eq]
    · rintro ⟨other, otherEnough, _⟩
      rcases Nat.lt_or_ge other doublings with less | more
      · exact first other less (.inl otherEnough)
      · have otherStart : windowStart text initialWindow other = 0 :=
          Nat.le_zero.mp (atStart ▸ windowStart_antitone text initialWindow more)
        rw [HoldsEnough, otherStart] at otherEnough
        rw [HoldsEnough, atStart] at enough
        exact enough otherEnough

theorem tail_agrees_iff (serde : Serde) (initialWindow maxMessages : Nat) {text : List Char}
    (small : (encode text).length ≤ maxWindowBytes) :
    (∃ rounds, readCodexTranscriptMessagesTailLimited serde initialWindow (encode text) maxMessages
        rounds = some ((readCodexTranscriptMessages serde text).rtake maxMessages)) ↔
      (0 < initialWindow ∨ maxMessages = 0 ∨ text = []) ∧
        ¬ WindowCutsRun serde initialWindow maxMessages text := by
  rw [tail_returns_iff serde initialWindow maxMessages small,
    ← exists_stops_iff serde initialWindow maxMessages text]
  constructor
  · rintro ⟨doublings, stops, first, same⟩
    exact ⟨⟨doublings, stops⟩, (tailAt_eq_iff _ _ _ stops first).mp same⟩
  · rintro ⟨someStops, uncut⟩
    classical
    have first : ∀ fewer < Nat.find someStops,
        ¬ Stops serde initialWindow maxMessages text fewer :=
      fun fewer less => Nat.find_min someStops less
    exact ⟨Nat.find someStops, Nat.find_spec someStops, first,
      (tailAt_eq_iff _ _ _ (Nat.find_spec someStops) first).mpr uncut⟩

theorem limited_agrees_iff (serde : Serde) (maxMessages : Nat) (text : List Char) :
    readCodexTranscriptMessagesLimited serde maxMessages text =
        (readCodexTranscriptMessages serde text).take maxMessages ↔
      maxMessages ≠ 0 ∨ spokenIn serde (lines text) = [] := by
  rw [readCodexTranscriptMessagesLimited_eq]
  rcases Nat.eq_zero_or_pos maxMessages with rfl | positive
  · have silent : heads messageKey (spokenIn serde (lines text)) = [] ↔
        spokenIn serde (lines text) = [] := heads_eq_nil_iff
    rw [readCodexTranscriptMessages_eq, ← silent]
    simp
  · rw [Nat.max_eq_left positive]
    exact iff_of_true rfl (.inl (Nat.ne_of_gt positive))

/-- The readers with a limit agree with the whole reader exactly when they are asked for a message
(or there is none), some window is not empty, and the window of the tail reader cuts no run. -/
theorem readsAgree_iff (serde : Serde) (initialWindow maxMessages : Nat) {text : List Char}
    (small : (encode text).length ≤ maxWindowBytes) :
    ReadsAgree serde initialWindow maxMessages text ↔
      (maxMessages ≠ 0 ∨ spokenIn serde (lines text) = []) ∧
        (0 < initialWindow ∨ maxMessages = 0 ∨ text = []) ∧
        ¬ WindowCutsRun serde initialWindow maxMessages text := by
  rw [ReadsAgree, tail_agrees_iff serde initialWindow maxMessages small, limited_agrees_iff,
    and_comm]

/-- A file that the first window holds is read as a whole. -/
theorem not_windowCutsRun_of_whole (serde : Serde) {initialWindow maxMessages : Nat}
    {text : List Char} (whole : (encode text).length ≤ initialWindow) :
    ¬ WindowCutsRun serde initialWindow maxMessages text := by
  rintro ⟨doublings, _, _, _, _, _, kept, isKept, _⟩
  have atStart : windowStart text initialWindow doublings = 0 :=
    Nat.sub_eq_zero_of_le (whole.trans (Nat.le_mul_of_pos_left _ (Nat.two_pow_pos doublings)))
  have none : spokenBefore serde text 0 = [] := by
    rw [spokenBefore, windowLines, if_neg (Nat.lt_irrefl 0), List.drop_zero, fromUtf8Lossy_encode,
      Nat.sub_self]
    rfl
  rw [atStart, none] at isKept
  cases isKept

/-! ## A reply that is recorded twice -/

/-- A reply, as the history has it. -/
def replyRecord : Json.Value :=
  .object [("timestamp".toList, .string "2026-03-20T10:00:00Z".toList),
    ("type".toList, .string "response_item".toList),
    ("payload".toList, .object [("type".toList, .string "message".toList),
      ("role".toList, .string "assistant".toList),
      ("content".toList, .array [.object [("type".toList, .string "output_text".toList),
        ("text".toList, .string "Done.".toList)]])])]

/-- The same reply, as it is shown. -/
def shownRecord : Json.Value :=
  .object [("timestamp".toList, .string "2026-03-20T10:00:01Z".toList),
    ("type".toList, .string "event_msg".toList),
    ("payload".toList, .object [("type".toList, .string "agent_message".toList),
      ("message".toList, .string "Done.".toList)])]

/-- The beginning of a record about the turn. -/
def contextOpening : List Char :=
  '{' :: (Json.quoted "type".toList ++ ':' :: Json.quoted "turn_context".toList ++
    ',' :: (Json.quoted "payload".toList ++ [':', '"']))

/-- A long record without a message. -/
def contextRecord (padding : Nat) : Json.Value :=
  .object [("type".toList, .string "turn_context".toList),
    ("payload".toList, .string (List.replicate padding 'x'))]

theorem render_contextRecord (padding : Nat) :
    (contextRecord padding).render =
      contextOpening ++ (List.replicate padding 'x' ++ ['"', '}']) := by
  have plain : Json.escape (List.replicate padding 'x') = List.replicate padding 'x' := by
    rw [Json.escape, List.flatMap_replicate]
    exact List.flatten_replicate_singleton
  have isRender : (contextRecord padding).render = contextOpening ++
      (Json.escape (List.replicate padding 'x') ++ ['"', '}']) := by
    simp [contextRecord, contextOpening, Json.Value.render, Json.renderFields, Json.renderField,
      Json.quoted]
  rw [isRender, plain]

/-- A parser that knows these records. -/
def replySerde : Serde where
  fromStr line :=
    if contextOpening.isPrefixOf line then
      some (contextRecord (line.length - contextOpening.length - 2))
    else if line = replyRecord.render then some replyRecord
    else if line = shownRecord.render then some shownRecord
    else none
  toStringPretty _ := none

def replyMessage : TranscriptMessage :=
  ⟨.assistant, some "2026-03-20T10:00:00Z".toList, ["Done.".toList]⟩

def shownMessage : TranscriptMessage :=
  ⟨.assistant, some "2026-03-20T10:00:01Z".toList, ["Done.".toList]⟩

theorem messageKey_shown : messageKey replyMessage = messageKey shownMessage := by
  have sameRole : replyMessage.role = shownMessage.role := rfl
  have sameLines : replyMessage.lines = shownMessage.lines := rfl
  rw [messageKey, messageKey, sameRole, sameLines]

theorem spokenIn_records : spokenIn replySerde [replyRecord.render] = [replyMessage] ∧
    spokenIn replySerde [shownRecord.render] = [shownMessage] := by
  decide +kernel

/-- The texts of the records are one line of ASCII each, and short. -/
theorem record_texts :
    ('\n' ∉ contextOpening ∧ contextOpening.length ≤ 1000) ∧
    ('\n' ∉ replyRecord.render ∧ dropReturn replyRecord.render = replyRecord.render ∧
      replyRecord.render.length ≤ 1000) ∧
    lines shownRecord.render = [shownRecord.render] ∧
    shownRecord.render.all (fun char => char.toNat < 0x80) = true ∧
    shownRecord.render.length ≤ 1000 := by
  decide +kernel

theorem spokenIn_context (padding : Nat) :
    spokenIn replySerde [(contextRecord padding).render] = [] := by
  have opens : contextOpening.isPrefixOf (contextRecord padding).render = true := by
    rw [List.isPrefixOf_iff_prefix, render_contextRecord]
    exact List.prefix_append _ _
  have parsed : replySerde.fromStr (contextRecord padding).render = some (contextRecord
      ((contextRecord padding).render.length - contextOpening.length - 2)) := by
    simp only [replySerde, opens, if_true]
  have silent : entriesOfLine replySerde (contextRecord padding).render = [] := by
    rw [entriesOfLine, parsed]
    rfl
  rw [spokenIn, List.flatMap_singleton, silent]
  rfl

theorem readsAgree_shown :
    ReadsAgree replySerde initialWindowBytes 1
      (replyRecord.render ++ '\n' :: shownRecord.render) := by
  obtain ⟨_, ⟨_, _, reply⟩, _, _, shown⟩ := record_texts
  have short : (encode (replyRecord.render ++ '\n' :: shownRecord.render)).length ≤
      initialWindowBytes := by
    apply (length_encode_le _).trans
    rw [List.length_append, List.length_cons, initialWindowBytes]
    omega
  have small : (encode (replyRecord.render ++ '\n' :: shownRecord.render)).length ≤
      maxWindowBytes := short.trans (by decide)
  refine (readsAgree_iff replySerde initialWindowBytes 1 small).mpr ⟨?_, ?_, ?_⟩
  · exact .inl Nat.one_ne_zero
  · exact .inl (by decide)
  · exact not_windowCutsRun_of_whole replySerde short

/-- The reply, a long record, and the reply again. -/
def echoText (padding : Nat) : List Char :=
  replyRecord.render ++ '\n' :: ((contextRecord padding).render ++ '\n' :: shownRecord.render)

theorem newline_not_mem_contextRecord (padding : Nat) :
    '\n' ∉ (contextRecord padding).render := by
  have opening : '\n' ∉ contextOpening := record_texts.1.1
  rw [render_contextRecord]
  simp [opening, List.mem_replicate]

theorem lines_echoText (padding : Nat) : lines (echoText padding) =
    [replyRecord.render, (contextRecord padding).render, shownRecord.render] := by
  have ends : dropReturn (contextRecord padding).render = (contextRecord padding).render := by
    rw [dropReturn, render_contextRecord, if_neg]
    simp
  obtain ⟨_, ⟨single, reply, _⟩, last, _⟩ := record_texts
  rw [echoText, lines_append_newline single,
    lines_append_newline (newline_not_mem_contextRecord padding), ends, reply, last]

/-- A window of this size begins inside the long record. -/
theorem exists_echo_window {window : Nat} (wide : shownRecord.render.length + 3 ≤ window) :
    ∃ front rest, echoText window = front ++ rest ∧ (encode rest).length = window ∧ front ≠ [] ∧
      (lines rest).drop 1 = [shownRecord.render] := by
  obtain ⟨size, isSize⟩ : ∃ size, size = shownRecord.render.length + 3 := ⟨_, rfl⟩
  rw [← isSize] at wide
  obtain ⟨more, rfl⟩ := Nat.exists_eq_add_of_le wide
  obtain ⟨_, _, last, plain, _⟩ := record_texts
  refine ⟨replyRecord.render ++ '\n' :: (contextOpening ++
      List.replicate size 'x'),
    (List.replicate more 'x' ++ ['"', '}']) ++ '\n' :: shownRecord.render, ?_, ?_, ?_, ?_⟩
  · rw [echoText, render_contextRecord, List.replicate_add]
    simp only [List.append_assoc, List.cons_append]
  · rw [length_encode_of_ascii]
    · simp only [List.length_append, List.length_cons, List.length_replicate, List.length_nil]
      omega
    · intro char member
      simp only [List.mem_append, List.mem_cons, List.mem_replicate, List.not_mem_nil] at member
      rcases member with (⟨_, rfl⟩ | rfl | rfl | absurd) | rfl | inShown
      · decide
      · decide
      · decide
      · cases absurd
      · decide
      · exact of_decide_eq_true (List.all_eq_true.mp plain char inShown)
  · simp
  · rw [lines_append_newline (by simp [List.mem_replicate]), List.drop_one, List.tail_cons, last]

theorem windowCutsRun_echo {window : Nat} (wide : shownRecord.render.length + 3 ≤ window) :
    WindowCutsRun replySerde window 1 (echoText window) := by
  obtain ⟨front, rest, isText, isWindow, nonempty, isLines⟩ := exists_echo_window wide
  have isEncode : encode (echoText window) = encode front ++ encode rest := by
    rw [isText]
    exact List.flatMap_append
  have inside : 0 < (encode front).length := Nat.pos_of_ne_zero (mt eq_nil_of_encode nonempty)
  have start : windowStart (echoText window) window 0 = (encode front).length := by
    rw [windowStart, isEncode, List.length_append, isWindow, Nat.pow_zero, Nat.one_mul,
      Nat.add_sub_cancel]
  have isSeen : windowLines (encode (echoText window)) (encode front).length =
      [shownRecord.render] := by
    rw [windowLines, isEncode, List.drop_left, fromUtf8Lossy_encode, if_pos inside, isLines]
  have since : spokenSince replySerde (echoText window) (encode front).length = [shownMessage] := by
    rw [spokenSince, isSeen, spokenIn_records.2]
  have before : spokenBefore replySerde (echoText window) (encode front).length =
      [replyMessage] := by
    have cut : spokenIn replySerde ([replyRecord.render] ++ [(contextRecord window).render]) =
        [replyMessage] := by
      rw [spokenIn_append, spokenIn_records.1, spokenIn_context, List.append_nil]
    rw [spokenBefore, isSeen, lines_echoText]
    exact cut
  refine ⟨0, ?_, fun _ none => absurd none (Nat.not_lt_zero _), ?_⟩
  · rw [HoldsEnough, start, since]
    exact Nat.le_refl 1
  · rw [start, since, before]
    exact ⟨rfl, shownMessage, rfl, replyMessage, rfl, messageKey_shown, by decide⟩

theorem length_encode_echoText_le (window : Nat) :
    (encode (echoText window)).length ≤ 4 * (window + 4000) := by
  obtain ⟨⟨_, opening⟩, ⟨_, _, reply⟩, _, _, shown⟩ := record_texts
  apply (length_encode_le _).trans
  rw [echoText, render_contextRecord]
  simp only [List.length_append, List.length_cons, List.length_replicate, List.length_nil]
  generalize replyRecord.render.length = first at reply ⊢
  generalize shownRecord.render.length = second at shown ⊢
  generalize contextOpening.length = third at opening ⊢
  omega

/-- With the initial window the last message is not that of the whole reader. -/
theorem not_readsAgree_echo :
    ¬ ReadsAgree replySerde initialWindowBytes 1 (echoText initialWindowBytes) := by
  have small : (encode (echoText initialWindowBytes)).length ≤ maxWindowBytes :=
    (length_encode_echoText_le initialWindowBytes).trans (by decide)
  have wide : shownRecord.render.length + 3 ≤ initialWindowBytes := by
    obtain ⟨_, _, _, _, shown⟩ := record_texts
    rw [initialWindowBytes]
    omega
  rintro ⟨agrees, _⟩
  exact ((tail_agrees_iff replySerde initialWindowBytes 1 small).mp agrees).2
    (windowCutsRun_echo wide)

end Yggterm.Transcripts
