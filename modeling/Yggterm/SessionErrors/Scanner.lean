import Yggterm.AttachSeed.Classify
import Yggterm.Library.Fields

/-!
# Scanning for refusals of an agent

`AgentSessionErrorScanner` (`yggterm-server/src/terminal.rs`) reads the output of an agent line by
line and reports the lines that refuse to resume a session.  Between two chunks it keeps the end
of the last line.
-/

namespace Yggterm.SessionErrors

open AttachSeed (contains splitWhitespace toAsciiLowercase)
open Fields Text

def agentSessionErrorThrottleMs : Nat := 60000
def agentSessionErrorCarryMaxChars : Nat := 400

/-! ## A line -/

inductive Pattern where
  | activeWriter
  | alreadyInUse
  | alreadyActive
  | notFound
  | uuidError
  deriving DecidableEq

def Pattern.name : Pattern → String
  | activeWriter => "session_active_writer"
  | alreadyInUse => "session_already_in_use"
  | alreadyActive => "session_already_active"
  | notFound => "session_not_found"
  | uuidError => "session_uuid_error"

structure AgentSessionErrorHit where
  pattern : Pattern
  uuid : Option (List Char)
  sample : List Char
  deriving DecidableEq

def truncateTerminalTraceSample (text : List Char) : List Char :=
  if (trim text).length ≤ 180 then trim text else (trim text).take 180

/-- `u8::is_ascii_hexdigit` -/
def isAsciiHexdigit (char : Char) : Bool :=
  char.isDigit || ('a' ≤ char && char ≤ 'f') || ('A' ≤ char && char ≤ 'F')

def uuidLen : Nat := 36
def dashOffsets : List Nat := [8, 13, 18, 23]

/-- The characters from `offset` on fit a UUID. -/
def fitsUuid : Nat → List Char → Bool
  | offset, [] => offset = uuidLen
  | offset, char :: rest =>
      offset = uuidLen ||
        ((if offset ∈ dashOffsets then char = '-' else isAsciiHexdigit char) &&
          fitsUuid (offset + 1) rest)

/-- `find_uuid_in_text`: bytes that match are ASCII, so characters are compared. -/
def findUuidInText : List Char → Option (List Char)
  | [] => none
  | char :: rest =>
      if fitsUuid 0 (char :: rest) then some ((char :: rest).take uuidLen) else findUuidInText rest

def agentSessionErrorLineLooksLikeCliError (normalized : List Char) : Bool :=
  normalized.length ≤ 200 && (splitWhitespace normalized).length ≤ 16

def normalizedLine (line : List Char) : List Char :=
  toAsciiLowercase ([' '].intercalate (splitWhitespace line))

/-- What a terse line is about. -/
def tersePattern (normalized : List Char) (uuid : Option (List Char)) : Option Pattern :=
  let mentionsSession := contains normalized "session" || contains normalized "conversation"
  let isMissing := contains normalized "not found" || contains normalized "does not exist" ||
    contains normalized "doesn't exist"
  if contains normalized "already in use" && (mentionsSession || uuid.isSome) then
    some .alreadyInUse
  else if contains normalized "already active" && (mentionsSession || uuid.isSome) then
    some .alreadyActive
  else if contains normalized "no conversation found" || contains normalized "no rollout found" then
    some .notFound
  else if mentionsSession && isMissing then some .notFound
  else if uuid.isSome && (isMissing || contains normalized "in use") then some .uuidError
  else none

def agentSessionErrorInLine (line : List Char) : Option AgentSessionErrorHit :=
  let normalized := normalizedLine line
  if normalized = [] then none
  else if contains normalized "terminal session not found" then none
  else if contains normalized "already has an active writer" &&
      ("failed to resume".toList.isPrefixOf normalized ||
        "error:".toList.isPrefixOf normalized) then
    some
      { pattern := .activeWriter
        uuid := findUuidInText normalized
        sample := truncateTerminalTraceSample normalized }
  else if !agentSessionErrorLineLooksLikeCliError normalized then none
  else
    let uuid := findUuidInText normalized
    (tersePattern normalized uuid).map fun pattern =>
      { pattern, uuid, sample := truncateTerminalTraceSample normalized }

/-! ## The scanner -/

def isLineBreak (char : Char) : Bool := char = '\n' || char = '\r'

def linesOf (text : List Char) : List (List Char) := text.splitOnP isLineBreak

structure AgentSessionErrorScanner where
  carry : List Char
  lastHitMs : Pattern → Option Nat

def AgentSessionErrorScanner.fresh : AgentSessionErrorScanner :=
  { carry := [], lastHitMs := fun _ => none }

/-- The loop over the lines: a pattern is due again `throttle` milliseconds after its last hit. -/
def reportLines (throttle now : Nat) :
    List (List Char) → (Pattern → Option Nat) → List AgentSessionErrorHit × (Pattern → Option Nat)
  | [], lastHitMs => ([], lastHitMs)
  | line :: lines, lastHitMs =>
      match agentSessionErrorInLine line with
      | none => reportLines throttle now lines lastHitMs
      | some hit =>
          if (lastHitMs hit.pattern).all fun last => throttle ≤ now - last then
            let later := reportLines throttle now lines
              (Function.update lastHitMs hit.pattern (some now))
            (hit :: later.1, later.2)
          else reportLines throttle now lines lastHitMs

/-- The end of a line that is kept. -/
def keepTail (tail : List Char) : List Char :=
  if agentSessionErrorCarryMaxChars < tail.length then
    tail.drop (tail.length - agentSessionErrorCarryMaxChars)
  else tail

def AgentSessionErrorScanner.scan (throttle : Nat) (scanner : AgentSessionErrorScanner)
    (stripped : List Char) (now : Nat) : List AgentSessionErrorHit × AgentSessionErrorScanner :=
  let combined := scanner.carry ++ stripped
  let reported := reportLines throttle now (linesOf combined) scanner.lastHitMs
  (reported.1, { carry := keepTail (lastField isLineBreak combined), lastHitMs := reported.2 })

/-- A scanner fed chunk after chunk, each at its time. -/
def AgentSessionErrorScanner.scanChunks (throttle : Nat) :
    AgentSessionErrorScanner → List (List Char × Nat) → List AgentSessionErrorHit
  | _, [] => []
  | scanner, (stripped, now) :: chunks =>
      (scanner.scan throttle stripped now).1 ++
        (scanner.scan throttle stripped now).2.scanChunks throttle chunks

/-- The line of the contract that stands for a hit. -/
def agentSessionErrorContractTranslation (hit : AgentSessionErrorHit)
    (launchCommand keyLabel : List Char) : Option (List Char) :=
  if hit.pattern ≠ .notFound || !contains launchCommand "--require-existing" then none
  else some ("Error: terminal session not found: ".toList ++ keyLabel)

/-! ## Lines that arrive in parts

Every chunk has the part of the last line judged that has arrived, and of a long line only an end
is kept.  Such a part may look like a refusal where the whole line does not. -/

/-! ### What is judged -/

def patternOf (line : List Char) : Option Pattern :=
  (agentSessionErrorInLine line).map AgentSessionErrorHit.pattern

def HasPattern (text : List Char) (pattern : Pattern) : Prop :=
  ∃ line ∈ linesOf text, patternOf line = some pattern

/-- Without a throttle every hit is due. -/
theorem reportLines_zero (now : Nat) (lines : List (List Char)) (lastHitMs : Pattern → Option Nat) :
    (reportLines 0 now lines lastHitMs).1 = lines.filterMap agentSessionErrorInLine := by
  induction lines generalizing lastHitMs with
  | nil => rfl
  | cons line lines inductionHypothesis =>
      rw [reportLines]
      cases judged : agentSessionErrorInLine line with
      | none => rw [List.filterMap_cons_none judged, inductionHypothesis]
      | some hit =>
          have due : ((lastHitMs hit.pattern).all fun last => 0 ≤ now - last) = true := by simp
          rw [List.filterMap_cons_some judged]
          simp only [due, if_true, inductionHypothesis]

/-- With a throttle some hits are left out. -/
theorem reportLines_sublist (throttle now : Nat) (lines : List (List Char))
    (lastHitMs : Pattern → Option Nat) :
    (reportLines throttle now lines lastHitMs).1.Sublist
      (lines.filterMap agentSessionErrorInLine) := by
  induction lines generalizing lastHitMs with
  | nil => exact List.Sublist.refl _
  | cons line lines inductionHypothesis =>
      rw [reportLines]
      cases judged : agentSessionErrorInLine line with
      | none =>
          rw [List.filterMap_cons_none judged]
          exact inductionHypothesis lastHitMs
      | some hit =>
          rw [List.filterMap_cons_some judged]
          dsimp only
          split
          · exact (inductionHypothesis _).cons_cons hit
          · exact (inductionHypothesis lastHitMs).cons hit

def judgedLines : List Char → List (List Char) → List (List Char)
  | _, [] => []
  | carry, chunk :: chunks =>
      linesOf (carry ++ chunk) ++
        judgedLines (keepTail (lastField isLineBreak (carry ++ chunk))) chunks

theorem scanChunks_zero (scanner : AgentSessionErrorScanner) (chunks : List (List Char × Nat)) :
    scanner.scanChunks 0 chunks =
      (judgedLines scanner.carry (chunks.map Prod.fst)).filterMap agentSessionErrorInLine := by
  induction chunks generalizing scanner with
  | nil => rfl
  | cons chunk chunks inductionHypothesis =>
      rw [AgentSessionErrorScanner.scanChunks, inductionHypothesis, List.map_cons, judgedLines,
        List.filterMap_append]
      change (reportLines 0 _ _ _).1 ++ _ = _
      rw [reportLines_zero]
      rfl

theorem scanChunks_sublist (throttle : Nat) (scanner : AgentSessionErrorScanner)
    (chunks : List (List Char × Nat)) :
    (scanner.scanChunks throttle chunks).Sublist
      ((judgedLines scanner.carry (chunks.map Prod.fst)).filterMap agentSessionErrorInLine) := by
  induction chunks generalizing scanner with
  | nil => exact List.Sublist.refl _
  | cons chunk chunks inductionHypothesis =>
      rw [AgentSessionErrorScanner.scanChunks, List.map_cons, judgedLines, List.filterMap_append]
      exact (reportLines_sublist throttle _ _ _).append (inductionHypothesis _)

/-! ### What is held between chunks -/

/-- What the scanner holds of a text. -/
def held (seen : List Char) : List Char := keepTail (lastField isLineBreak seen)

theorem keepTail_suffix (tail : List Char) : keepTail tail <:+ tail := by
  rw [keepTail]
  split
  · exact List.drop_suffix _ _
  · exact List.suffix_rfl

theorem keepTail_of_short {tail : List Char}
    (short : tail.length ≤ agentSessionErrorCarryMaxChars) :
    keepTail tail = tail :=
  if_neg (Nat.not_lt.mpr short)

theorem keepTail_eq_drop (tail : List Char) :
    keepTail tail = tail.drop (tail.length - agentSessionErrorCarryMaxChars) := by
  rw [keepTail]
  split
  · rfl
  · next short => rw [Nat.sub_eq_zero_of_le (Nat.le_of_not_lt short), List.drop_zero]

theorem keepTail_append (tail more : List Char) :
    keepTail (keepTail tail ++ more) = keepTail (tail ++ more) := by
  rw [keepTail_eq_drop, keepTail_eq_drop, keepTail_eq_drop]
  generalize agentSessionErrorCarryMaxChars = limit
  have kept : tail.drop (tail.length - limit) ++ more =
      (tail ++ more).drop (tail.length - limit) := by
    rw [List.drop_append_of_le_length (Nat.sub_le _ _)]
  rw [kept, List.drop_drop, List.length_drop, List.length_append]
  congr 1
  omega

theorem clean_held (seen : List Char) : Clean isLineBreak (held seen) := by
  intro char member
  exact clean_lastField isLineBreak seen char ((keepTail_suffix _).subset member)

/-- What is held of the held text and a chunk is held of the whole text. -/
theorem held_append (seen chunk : List Char) :
    held (held seen ++ chunk) = held (seen ++ chunk) := by
  by_cases clean : Clean isLineBreak chunk
  · have isHeld : lastField isLineBreak (held seen) = held seen := by
      have whole : lastField isLineBreak ([] ++ held seen) = held seen :=
        lastField_append opens_nil (clean_held seen)
      rwa [List.nil_append] at whole
    rw [held, lastField_append_of_clean clean, isHeld, held, keepTail_append, held,
      lastField_append_of_clean clean]
  · rw [held, lastField_append_of_not_clean clean, held, lastField_append_of_not_clean clean]

theorem mem_judgedLines_iff {seen line : List Char} {chunks : List (List Char)} :
    line ∈ judgedLines (held seen) chunks ↔ ∃ before chunk after,
      chunks = before ++ chunk :: after ∧
        line ∈ linesOf (held (seen ++ before.flatten) ++ chunk) := by
  induction chunks generalizing seen with
  | nil => simp [judgedLines]
  | cons chunk chunks inductionHypothesis =>
      rw [judgedLines, List.mem_append]
      change _ ∨ line ∈ judgedLines (held (held seen ++ chunk)) chunks ↔ _
      rw [held_append, inductionHypothesis]
      constructor
      · rintro (here | ⟨before, later, after, rfl, member⟩)
        · exact ⟨[], chunk, chunks, rfl, by simpa using here⟩
        · exact ⟨chunk :: before, later, after, rfl, by simpa using member⟩
      · rintro ⟨before, later, after, isChunks, member⟩
        cases before with
        | nil =>
            cases isChunks
            exact .inl (by simpa using member)
        | cons first before =>
            cases isChunks
            exact .inr ⟨before, later, after, rfl, by simpa using member⟩

/-! ### Parts of lines -/

/-- A line that is judged is a line of the text, or it is open at the end of the chunk, or its
front has been cut off. -/
theorem isField_of_judged {seen chunk line : List Char} (rest : List Char)
    (judged : line ∈ linesOf (held seen ++ chunk)) :
    line ∈ linesOf (seen ++ (chunk ++ rest)) ∨
      (¬ Closes isLineBreak rest ∧ line = lastField isLineBreak (held seen ++ chunk)) ∨
      (agentSessionErrorCarryMaxChars < (lastField isLineBreak seen).length ∧
        line = firstField isLineBreak (held seen ++ chunk)) := by
  obtain ⟨front, back, isText, opens, closes, clean⟩ := mem_splitOnP_iff.mp judged
  by_cases finished : back = [] → Closes isLineBreak rest
  swap
  · obtain ⟨rfl, unfinished⟩ := Classical.not_imp.mp finished
    rw [List.append_nil] at isText
    refine .inr (.inl ⟨unfinished, ?_⟩)
    rw [isText, lastField_append opens clean]
  by_cases cut : front = [] ∧ agentSessionErrorCarryMaxChars < (lastField isLineBreak seen).length
  · obtain ⟨rfl, long⟩ := cut
    refine .inr (.inr ⟨long, ?_⟩)
    rw [isText, List.nil_append, firstField_append clean closes]
  -- The line is whole.
  left
  have closesRest : Closes isLineBreak (back ++ rest) := by
    cases back with
    | nil => exact finished rfl
    | cons char back => exact closes
  apply mem_splitOnP_iff.mpr
  cases front with
  | nil =>
      have short : (lastField isLineBreak seen).length ≤ agentSessionErrorCarryMaxChars :=
        Nat.le_of_not_lt fun long => cut ⟨rfl, long⟩
      obtain ⟨earlier, isSeen, opensEarlier⟩ := exists_lastField isLineBreak seen
      refine ⟨earlier, back ++ rest, ?_, opensEarlier, closesRest, clean⟩
      rw [held, keepTail_of_short short] at isText
      conv_lhs => rw [isSeen, List.append_assoc, ← List.append_assoc _ chunk, isText]
      simp
  | cons char others =>
      -- The held text has no line break, so the line begins behind it.
      obtain ⟨inChunk, isFront, isChunk⟩ : ∃ inChunk, char :: others = held seen ++ inChunk ∧
          chunk = inChunk ++ (line ++ back) := by
        rcases List.append_eq_append_iff.mp isText with ⟨more, isFront, rest⟩ | ⟨more, isHeld, rest⟩
        · exact ⟨more, isFront, rest⟩
        · have heldClean := clean_held seen
          rw [isHeld] at heldClean
          exact absurd ((Clean.of_append heldClean).1.eq_nil_of_opens opens) (List.cons_ne_nil _ _)
      have nonempty : inChunk ≠ [] := by
        rintro rfl
        rw [List.append_nil] at isFront
        have heldClean := clean_held seen
        rw [← isFront] at heldClean
        exact absurd (heldClean.eq_nil_of_opens opens) (List.cons_ne_nil _ _)
      refine ⟨seen ++ inChunk, back ++ rest, by simp [isChunk], ?_, closesRest, clean⟩
      rw [opens_append_iff nonempty]
      rwa [isFront, opens_append_iff nonempty] at opens

/-- A line of the text of no more than the kept length is judged with the chunk that ends it. -/
theorem judged_of_isField {seen chunk rest front line back : List Char}
    (isText : seen ++ (chunk ++ rest) = front ++ (line ++ back)) (opens : Opens isLineBreak front)
    (closes : Closes isLineBreak back) (clean : Clean isLineBreak line)
    (short : line.length ≤ agentSessionErrorCarryMaxChars)
    (begun : seen.length ≤ (front ++ line).length)
    (ended : (front ++ line).length < (seen ++ chunk).length ∨ back = [] ∧ rest = []) :
    line ∈ linesOf (held seen ++ chunk) := by
  apply mem_splitOnP_iff.mpr
  -- The chunk ends the line.
  obtain ⟨chunkBack, isBack, chunkCloses⟩ :
    ∃ chunkBack, seen ++ chunk = front ++ line ++ chunkBack ∧
      Closes isLineBreak chunkBack := by
    rw [← List.append_assoc, ← List.append_assoc] at isText
    rcases ended with within | ⟨rfl, rfl⟩
    · obtain ⟨chunkBack, isChunk⟩ : front ++ line <+: seen ++ chunk :=
        List.prefix_of_prefix_length_le ⟨back, isText.symm⟩ (List.prefix_append _ _) within.le
      refine ⟨chunkBack, isChunk.symm, ?_⟩
      rw [← isChunk, List.append_assoc, List.append_cancel_left_eq] at isText
      have nonempty : chunkBack ≠ [] := by
        rintro rfl
        rw [← isChunk, List.append_nil] at within
        exact lt_irrefl _ within
      rwa [← isText, closes_append_iff nonempty] at closes
    · rw [List.append_nil, List.append_nil] at isText
      exact ⟨[], by rw [List.append_nil, isText], nofun⟩
  rw [List.append_assoc] at isBack
  rcases List.append_eq_append_iff.mp isBack with
    ⟨inChunk, isFront, isChunk⟩ | ⟨begins, isSeen, isLine⟩
  · -- The line begins in the chunk, or with it.
    refine ⟨held seen ++ inChunk, chunkBack, by simp [isChunk], ?_, chunkCloses, clean⟩
    cases inChunk with
    | nil =>
        rw [List.append_nil] at isFront ⊢
        rw [isFront] at opens
        rw [held, lastField_of_opens opens]
        exact opens_nil
    | cons char inChunk =>
        rw [isFront, opens_append_iff (List.cons_ne_nil _ _)] at opens
        rwa [opens_append_iff (List.cons_ne_nil _ _)]
  · -- The line has begun before.
    obtain ⟨later, isWhole⟩ : begins <+: line := by
      rw [isSeen, List.length_append, List.length_append, Nat.add_le_add_iff_left] at begun
      exact List.prefix_of_prefix_length_le ⟨_, isLine.symm⟩ (List.prefix_append _ _) begun
    have cleanBegins : Clean isLineBreak begins := by
      rw [← isWhole] at clean
      exact (Clean.of_append clean).1
    have isHeld : held seen = begins := by
      rw [held, isSeen, lastField_append opens cleanBegins]
      apply keepTail_of_short
      rw [← isWhole, List.length_append] at short
      omega
    refine ⟨[], chunkBack, ?_, opens_nil, chunkCloses, clean⟩
    rw [List.nil_append, isHeld, isLine]

/-- The chunk in which a place of the text lies. -/
theorem exists_chunk_of_lt {chunks : List (List Char)} {place : Nat}
    (within : place < chunks.flatten.length) : ∃ before chunk after,
      chunks = before ++ chunk :: after ∧ before.flatten.length ≤ place ∧
        place < (before.flatten ++ chunk).length := by
  induction chunks generalizing place with
  | nil => cases within
  | cons chunk chunks inductionHypothesis =>
      by_cases here : place < chunk.length
      · exact ⟨[], chunk, chunks, rfl, Nat.zero_le _, by simpa using here⟩
      · rw [List.flatten_cons, List.length_append] at within
        have shorter : place - chunk.length < chunks.flatten.length := by omega
        obtain ⟨before, later, after, rfl, starts, ends⟩ := inductionHypothesis shorter
        refine ⟨chunk :: before, later, after, rfl, ?_, ?_⟩
        · rw [List.flatten_cons, List.length_append]
          omega
        · rw [List.length_append] at ends
          rw [List.flatten_cons, List.append_assoc, List.length_append, List.length_append]
          omega

theorem mem_judgedLines_of_short {chunks : List (List Char)} {line : List Char}
    (isLine : line ∈ linesOf chunks.flatten) (nonempty : chunks ≠ [])
    (short : line.length ≤ agentSessionErrorCarryMaxChars) : line ∈ judgedLines [] chunks := by
  obtain ⟨front, back, isText, opens, closes, clean⟩ := mem_splitOnP_iff.mp isLine
  have fresh : held [] = [] := rfl
  rw [← fresh, mem_judgedLines_iff]
  rcases Nat.lt_or_ge (front ++ line).length chunks.flatten.length with within | atEnd
  · obtain ⟨before, chunk, after, rfl, starts, ends⟩ := exists_chunk_of_lt within
    refine ⟨before, chunk, after, rfl, ?_⟩
    rw [List.flatten_append, List.flatten_cons] at isText
    exact judged_of_isField isText opens closes clean short starts (.inl ends)
  · obtain ⟨before, chunk, rfl⟩ := (List.eq_nil_or_concat' chunks).resolve_left nonempty
    have isEnd : back = [] := by
      simp only [isText, List.length_append] at atEnd
      exact List.length_eq_zero_iff.mp (by omega)
    refine ⟨before, chunk, [], rfl, ?_⟩
    have isWhole : before.flatten ++ (chunk ++ []) = front ++ (line ++ back) := by
      rw [← isText]
      simp
    refine judged_of_isField isWhole opens closes clean short ?_ (.inr ⟨isEnd, rfl⟩)
    have lengths := congrArg List.length isWhole
    rw [isEnd] at lengths
    simp only [List.length_append, List.length_nil] at lengths
    simp only [List.nil_append, List.length_append]
    omega

/-! ### The scanner over a stream -/

/-- What the scanner should do with a stream, the throttle apart: it reports the patterns of lines
only, and those of all lines that it can keep. -/
structure NoiseSafe (chunks : List (List Char × Nat)) : Prop where
  sound : ∀ hit ∈ AgentSessionErrorScanner.fresh.scanChunks 0 chunks,
    HasPattern (chunks.map Prod.fst).flatten hit.pattern
  complete : ∀ line ∈ linesOf (chunks.map Prod.fst).flatten,
    line.length ≤ agentSessionErrorCarryMaxChars → ∀ pattern, patternOf line = some pattern →
      ∃ hit ∈ AgentSessionErrorScanner.fresh.scanChunks 0 chunks, hit.pattern = pattern

/-- No part of a line looks like a refusal of a kind that no line is: neither what has arrived of
it where a chunk ends, nor a line whose front is no longer kept. -/
structure HarmlessCuts (chunks : List (List Char)) : Prop where
  openEnds : ∀ before chunk after, chunks = before ++ chunk :: after →
    ¬ Closes isLineBreak after.flatten → ∀ pattern,
      patternOf (lastField isLineBreak (held before.flatten ++ chunk)) = some pattern →
        HasPattern chunks.flatten pattern
  cutFronts : ∀ before chunk after, chunks = before ++ chunk :: after →
    agentSessionErrorCarryMaxChars < (lastField isLineBreak before.flatten).length → ∀ pattern,
      patternOf (firstField isLineBreak (held before.flatten ++ chunk)) = some pattern →
        HasPattern chunks.flatten pattern

theorem exists_hit_iff {chunks : List (List Char × Nat)} {pattern : Pattern} :
    (∃ hit ∈ AgentSessionErrorScanner.fresh.scanChunks 0 chunks, hit.pattern = pattern) ↔
      ∃ line ∈ judgedLines [] (chunks.map Prod.fst), patternOf line = some pattern := by
  rw [scanChunks_zero]
  simp only [List.mem_filterMap, patternOf, Option.map_eq_some_iff]
  constructor
  · rintro ⟨hit, ⟨line, judged, found⟩, rfl⟩
    exact ⟨line, judged, hit, found, rfl⟩
  · rintro ⟨line, judged, hit, found, rfl⟩
    exact ⟨hit, ⟨line, judged, found⟩, rfl⟩

/-- The scanner is safe exactly when no cut makes a refusal of a part of a line. -/
theorem noiseSafe_iff_harmlessCuts (chunks : List (List Char × Nat)) :
    NoiseSafe chunks ↔ HarmlessCuts (chunks.map Prod.fst) := by
  have fresh : held [] = [] := rfl
  constructor
  · intro safe
    have sound : ∀ before chunk after, chunks.map Prod.fst = before ++ chunk :: after →
        ∀ line ∈ linesOf (held before.flatten ++ chunk), ∀ pattern,
          patternOf line = some pattern → HasPattern (chunks.map Prod.fst).flatten pattern := by
      intro before chunk after isChunks line member pattern found
      have judged : line ∈ judgedLines [] (chunks.map Prod.fst) := by
        rw [← fresh, mem_judgedLines_iff]
        exact ⟨before, chunk, after, isChunks, member⟩
      obtain ⟨hit, isHit, rfl⟩ := exists_hit_iff.mpr ⟨line, judged, found⟩
      exact safe.sound hit isHit
    constructor
    · intro before chunk after isChunks _
      exact sound before chunk after isChunks _ (mem_splitOnP_iff.mpr (isField_lastField _))
    · intro before chunk after isChunks _
      exact sound before chunk after isChunks _ (mem_splitOnP_iff.mpr (isField_firstField _))
  · intro harmless
    constructor
    · intro hit isHit
      obtain ⟨line, judged, found⟩ := exists_hit_iff.mp ⟨hit, isHit, rfl⟩
      rw [← fresh, mem_judgedLines_iff] at judged
      obtain ⟨before, chunk, after, isChunks, member⟩ := judged
      rw [List.nil_append] at member
      rcases isField_of_judged after.flatten member with isLine | ⟨unfinished, rfl⟩ |
        ⟨long, rfl⟩
      · refine ⟨line, ?_, found⟩
        rw [isChunks, List.flatten_append, List.flatten_cons]
        exact isLine
      · exact harmless.openEnds before chunk after isChunks unfinished _ found
      · exact harmless.cutFronts before chunk after isChunks long _ found
    · intro line isLine short pattern found
      apply exists_hit_iff.mpr
      refine ⟨line, mem_judgedLines_of_short isLine ?_ short, found⟩
      intro isNil
      rw [isNil] at isLine
      rw [List.mem_singleton.mp isLine] at found
      cases found

/-- With the throttle, a hit that is translated into a line of the contract comes from a line. -/
theorem HarmlessCuts.hasPattern_of_translation {chunks : List (List Char × Nat)}
    (harmless : HarmlessCuts (chunks.map Prod.fst)) {hit : AgentSessionErrorHit}
    (isHit : hit ∈ AgentSessionErrorScanner.fresh.scanChunks agentSessionErrorThrottleMs chunks)
    {launchCommand keyLabel line : List Char}
    (translates : agentSessionErrorContractTranslation hit launchCommand keyLabel = some line) :
    HasPattern (chunks.map Prod.fst).flatten .notFound := by
  have unthrottled : hit ∈ AgentSessionErrorScanner.fresh.scanChunks 0 chunks := by
    rw [scanChunks_zero]
    exact (scanChunks_sublist _ _ _).subset isHit
  have safe := (noiseSafe_iff_harmlessCuts chunks).mpr harmless
  rw [agentSessionErrorContractTranslation] at translates
  split at translates
  · cases translates
  · next translated =>
      simp only [Bool.or_eq_true, decide_eq_true_eq, not_or, Decidable.not_not] at translated
      rw [← translated.1]
      exact safe.sound hit unthrottled

/-- A sentence that mentions a session which does not exist, cut behind these words. -/
def cutSentence : List (List Char × Nat) :=
  [("i think the session does not exist".toList, 1000),
    (" because we never wrote it, but let me verify that against the transcript first".toList,
      1001)]

theorem cutSentence_reported : ¬ ∀ chunks, NoiseSafe chunks := by
  intro claimed
  have reported : ∃ hit ∈ AgentSessionErrorScanner.fresh.scanChunks 0 cutSentence,
      hit.pattern = .notFound := by
    decide
  have nowhere : ∀ line ∈ linesOf (cutSentence.map Prod.fst).flatten, patternOf line = none := by
    decide +kernel
  obtain ⟨hit, isHit, isNotFound⟩ := reported
  obtain ⟨line, isLine, found⟩ := (claimed cutSentence).sound hit isHit
  rw [nowhere line isLine] at found
  cases found

end Yggterm.SessionErrors
