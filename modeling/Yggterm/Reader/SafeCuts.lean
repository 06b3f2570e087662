import Yggterm.Reader.FilterPasses

/-!
# Cuts that do no harm

A cut inside a colour sequence is healed if the introducer stands before it, and a
cut elsewhere is harmless unless a sequence that matters straddles it.
-/

namespace Yggterm.Reader

open Search TerminalProtocolFilterResult

/-- Every colour sequence, to its terminator or to the end of the text, is small
enough to be held back. -/
def ColorSequencesFit (text : List Char) : Prop :=
  ∀ before content, text = before ++ (esc :: ']' :: content) →
    oscSequenceMightNeedFiltering content = true →
      byteLength (esc :: ']' :: stringBody content) ≤ terminalProtocolMaxPendingBytes

theorem ColorSequencesFit.of_append_left {first second : List Char}
    (fit : ColorSequencesFit (first ++ second)) : ColorSequencesFit first := by
  intro before content isFirst needed
  have whole : first ++ second = before ++ (esc :: ']' :: (content ++ second)) := by simp [isFirst]
  have grows := byteLength_stringBody_append content second
  have small := fit before (content ++ second) whole
    (oscSequenceMightNeedFiltering_append needed second)
  simp only [byteLength_cons] at small ⊢
  omega

theorem ColorSequencesFit.of_append_right {first second : List Char}
    (fit : ColorSequencesFit (first ++ second)) : ColorSequencesFit second := by
  intro before content isSecond
  apply fit (first ++ before) content
  rw [isSecond, List.append_assoc]

/-! ## The OSC pass over a cut -/

/-- The last escape before the cut does not need the chunk to become a colour
introducer. -/
def IntroducersWhole (before chunk : List Char) : Prop :=
  ∀ start, esc :: start <:+ before → esc ∉ start → introduces (esc :: start ++ chunk) = true →
    introduces (esc :: start) = true

theorem IntroducersWhole.of_suffix {before rest chunk : List Char}
    (whole : IntroducersWhole before chunk) (isSuffix : rest <:+ before) :
    IntroducersWhole rest chunk := by
  intro start isStart
  apply whole start
  exact isStart.trans isSuffix

/-- A part of an introducer holds no further escape. -/
theorem esc_not_mem_of_introduces_append {rest chunk : List Char}
    (begins : introduces (esc :: rest ++ chunk) = true)
    (notYet : introduces (esc :: rest) = false) :
    esc ∉ rest := by
  obtain ⟨content, isText, needed⟩ := introduces_iff.mp begins
  cases rest with
  | nil => simp
  | cons char others =>
      obtain ⟨rfl, isContent⟩ : char = ']' ∧ others ++ chunk = content := by simpa using isText
      have notNeeded : ¬ oscSequenceMightNeedFiltering others = true := by
        simpa [introduces] using notYet
      rw [← isContent] at needed
      obtain ⟨introducer, member, here⟩ := oscSequenceMightNeedFiltering_iff.mp needed
      have plain : ∀ introducer ∈ colorIntroducers, esc ∉ introducer := by decide
      rcases List.prefix_or_prefix_of_prefix here (List.prefix_append others chunk) with
        complete | part
      · exact absurd (oscSequenceMightNeedFiltering_iff.mpr ⟨introducer, member,
          complete⟩) notNeeded
      · intro isEsc
        rcases List.mem_cons.mp isEsc with isBracket | inside
        · exact absurd isBracket (by decide)
        · exact plain introducer member (part.subset inside)

section Osc

variable {profile : TerminalProtocolProfile}

/-- The pass goes on from what it held back as if the text had come at once. -/
theorem processOsc_append {before chunk : List Char} (whole : IntroducersWhole before chunk)
    (fit : ColorSequencesFit (before ++ chunk)) :
    processOsc profile (before ++ chunk) =
      (processOsc profile ((processOsc profile before).pending ++ chunk)).after
        (processOsc profile before).result := by
  induction before using oscInduction with
  | nil =>
      rw [processOsc_nil]
      rfl
  | skip char rest skips inductionHypothesis =>
      have stillSkips : introduces (char :: (rest ++ chunk)) = false := by
        by_contra begins
        rw [Bool.not_eq_false] at begins
        obtain ⟨content, isText, _⟩ := introduces_iff.mp begins
        obtain rfl : char = esc := (List.cons.inj isText).1
        have noEsc := esc_not_mem_of_introduces_append begins skips
        have already := whole rest List.suffix_rfl noEsc begins
        rw [skips] at already
        cases already
      have fitOn : ColorSequencesFit ([char] ++ (rest ++ chunk)) := fit
      have later := inductionHypothesis (whole.of_suffix (List.suffix_cons char rest))
        fitOn.of_append_right
      rw [List.cons_append, processOsc_skip stillSkips, processOsc_skip skips, later,
        Filtered.after_after]
      rfl
  | opened content needed isOpen =>
      have small := fit.of_append_left [] content rfl needed
      rw [stringBody, isOpen] at small
      rw [processOsc_open needed isOpen small]
      rfl
  | closed content found needed isClosed inductionHypothesis =>
      have isContent : esc :: ']' :: content =
          (esc :: ']' :: (found.content ++ found.terminator)) ++ found.rest := by
        simp [← closing_eq isClosed]
      have isSuffix : found.rest <:+ esc :: ']' :: content := ⟨_, isContent.symm⟩
      rw [isContent, List.append_assoc] at fit
      have later := inductionHypothesis (whole.of_suffix isSuffix) fit.of_append_right
      have stillNeeded := oscSequenceMightNeedFiltering_append needed chunk
      have stillClosed := closing_append isClosed chunk
      rw [List.cons_append, List.cons_append]
      cases parsed : parseOscColorQueryContent found.content with
      | none =>
          rw [processOsc_other stillNeeded stillClosed parsed,
            processOsc_other needed isClosed parsed,
            later, Filtered.after_after]
          rfl
      | some queries =>
          rw [processOsc_query stillNeeded stillClosed parsed,
            processOsc_query needed isClosed parsed,
            later, Filtered.after_after]
          rfl

end Osc

/-! ## The CSI pass over a cut -/

/-- A control sequence that begins before the cut and ends behind it is no query, and
its end would not be one either. -/
def SequencesHarmless (before chunk : List Char) : Prop :=
  ∀ opened tail after, opened <:+ before → opened ≠ [] → upToLetter opened = none →
    upToLetter chunk = some (tail, after) → [esc, '['] <+: opened ++ tail →
      opened ++ tail ∉ csiQueries ∧ ∀ query ∈ csiQueries, ¬ query <:+ tail

theorem SequencesHarmless.of_suffix {before rest chunk : List Char}
    (harmless : SequencesHarmless before chunk) (isSuffix : rest <:+ before) :
    SequencesHarmless rest chunk := by
  intro opened tail after isOpened
  apply harmless opened tail after
  exact isOpened.trans isSuffix

theorem upToLetter_append_of_none {first : List Char} (noLetter : upToLetter first = none)
    (second : List Char) :
    upToLetter (first ++ second) =
      (upToLetter second).map fun (tail, after) => (first ++ tail, after) := by
  induction first with
  | nil => simp
  | cons char rest inductionHypothesis =>
      rw [upToLetter] at noLetter
      split at noLetter
      · cases noLetter
      · next notLetter =>
          rw [List.cons_append, upToLetter, if_neg notLetter,
            inductionHypothesis (Option.map_eq_none_iff.mp noLetter), Option.map_map]
          rfl

theorem upToLetter_append_of_some {first tail after : List Char}
    (ends : upToLetter first = some (tail, after)) (second : List Char) :
    upToLetter (first ++ second) = some (tail, after ++ second) := by
  induction first generalizing tail with
  | nil => cases ends
  | cons char rest inductionHypothesis =>
      rw [upToLetter] at ends
      rw [List.cons_append, upToLetter]
      split at ends
      · next isLetter =>
          cases ends
          rw [if_pos isLetter]
      · next notLetter =>
          obtain ⟨⟨laterTail, laterAfter⟩, laterEnds, isEnds⟩ := Option.map_eq_some_iff.mp ends
          cases isEnds
          rw [if_neg notLetter, inductionHypothesis laterEnds]
          rfl

section Csi

variable {cursorPosition : Option (UInt16 × UInt16)}

/-- Without a letter no sequence ends. -/
theorem processCsi_of_no_letter {text : List Char} (noLetter : upToLetter text = none) :
    processCsi cursorPosition text = visible text := by
  induction text using csiInduction with
  | nil => exact processCsi_nil
  | skip char rest skips inductionHypothesis =>
      rw [upToLetter] at noLetter
      split at noLetter
      · cases noLetter
      · rw [processCsi_skip skips, inductionHypothesis (Option.map_eq_none_iff.mp noLetter)]
        rfl
  | opened body isOpen => exact processCsi_open isOpen
  | closed body tail after ends _ =>
      simp [upToLetter, ends, esc] at noLetter

/-- Up to its first letter a text passes, unless a query ends there. -/
theorem processCsi_of_letter {text tail after : List Char}
    (ends : upToLetter text = some (tail, after))
    (noQuery : ∀ query ∈ csiQueries, ¬ query <:+ tail) :
    processCsi cursorPosition text = visible tail ++ processCsi cursorPosition after := by
  induction text using csiInduction generalizing tail with
  | nil => cases ends
  | skip char rest skips inductionHypothesis =>
      rw [processCsi_skip skips]
      rw [upToLetter] at ends
      split at ends
      · cases ends
        rfl
      · obtain ⟨⟨laterTail, laterAfter⟩, laterEnds, isEnds⟩ := Option.map_eq_some_iff.mp ends
        cases isEnds
        have later := inductionHypothesis laterEnds (by
          intro query isQuery isSuffix
          apply noQuery query isQuery
          exact isSuffix.trans (List.suffix_cons char laterTail))
        rw [later, ← append_assoc]
        rfl
  | opened body isOpen => simp [upToLetter, isOpen, esc] at ends
  | closed body bodyTail bodyAfter bodyEnds _ =>
      obtain ⟨rfl, rfl⟩ : esc :: '[' :: bodyTail = tail ∧ bodyAfter = after := by
        simpa [upToLetter, bodyEnds, esc] using ends
      have noResponse : csiResponse cursorPosition (esc :: '[' :: bodyTail) = none := by
        apply csiResponse_eq_none_iff.mpr
        intro isQuery
        exact noQuery _ isQuery List.suffix_rfl
      rw [processCsi_sequence bodyEnds, processCsiSequence, noResponse]

theorem processCsi_of_isPrefix {text sequence after : List Char} (begins : [esc, '['] <+: text)
    (ends : upToLetter text = some (sequence, after)) :
    [esc, '['] <+: sequence ∧
      processCsi cursorPosition text =
        processCsiSequence cursorPosition sequence ++ processCsi cursorPosition after := by
  obtain ⟨body, rfl⟩ := begins
  cases bodyEnds : upToLetter body with
  | none => simp [upToLetter, bodyEnds, esc] at ends
  | some found =>
      obtain ⟨tail, rest⟩ := found
      obtain ⟨rfl, rfl⟩ : esc :: '[' :: tail = sequence ∧ rest = after := by
        simpa [upToLetter, bodyEnds, esc] using ends
      exact ⟨⟨tail, rfl⟩, processCsi_sequence bodyEnds⟩

/-- A control sequence that the cut divides passes in two parts as it does in one. -/
theorem processCsi_divided {opened chunk : List Char} (noLetter : upToLetter opened = none)
    (nonempty : opened ≠ []) (harmless : SequencesHarmless opened chunk)
    (begins : [esc, '['] <+: opened ++ chunk) :
    processCsi cursorPosition (opened ++ chunk) =
      visible opened ++ processCsi cursorPosition chunk := by
  have ends := upToLetter_append_of_none noLetter chunk
  cases found : upToLetter chunk with
  | none =>
      rw [found] at ends
      rw [processCsi_of_no_letter ends, processCsi_of_no_letter found, visible_append]
  | some ending =>
      obtain ⟨tail, after⟩ := ending
      rw [found] at ends
      obtain ⟨sequenceBegins, passes⟩ := processCsi_of_isPrefix begins ends
      obtain ⟨notQuery, noTail⟩ :=
        harmless opened tail after List.suffix_rfl nonempty noLetter found sequenceBegins
      have noResponse : csiResponse cursorPosition (opened ++ tail) = none :=
        csiResponse_eq_none_iff.mpr notQuery
      rw [passes, processCsiSequence, noResponse, processCsi_of_letter found noTail,
        ← append_assoc, visible_append]

theorem processCsi_append {before chunk : List Char} (harmless : SequencesHarmless before chunk) :
    processCsi cursorPosition (before ++ chunk) =
      processCsi cursorPosition before ++ processCsi cursorPosition chunk := by
  induction before using csiInduction with
  | nil => rw [processCsi_nil, visible_nil_append, List.nil_append]
  | skip char rest skips inductionHypothesis =>
      by_cases divided : char = esc ∧ (rest ++ chunk).head? = some '['
      · -- the cut stands between `ESC` and `[`
        obtain ⟨rfl, isBracket⟩ := divided
        obtain rfl : rest = [] := by
          cases rest with
          | nil => rfl
          | cons next others => exact absurd ⟨rfl, isBracket⟩ skips
        obtain ⟨body, rfl⟩ := List.head?_eq_some_iff.mp isBracket
        rw [processCsi_divided (by decide) (by simp) harmless ⟨body, rfl⟩, processCsi_skip skips,
          processCsi_nil, append_visible_nil]
      · have later := inductionHypothesis (harmless.of_suffix (List.suffix_cons char rest))
        rw [List.cons_append, processCsi_skip divided, processCsi_skip skips, later, append_assoc]
  | opened body isOpen =>
      have noLetter : upToLetter (esc :: '[' :: body) = none := by simp [upToLetter, isOpen, esc]
      rw [processCsi_divided noLetter (by simp) harmless ⟨body ++ chunk, rfl⟩,
        processCsi_open isOpen]
  | closed body tail after ends inductionHypothesis =>
      have isSuffix : after <:+ esc :: '[' :: body :=
        ⟨esc :: '[' :: tail, by simp [← upToLetter_eq ends]⟩
      have later := inductionHypothesis (harmless.of_suffix isSuffix)
      rw [List.cons_append, List.cons_append,
        processCsi_sequence (upToLetter_append_of_some ends chunk), processCsi_sequence ends, later,
        append_assoc]

end Csi

/-! ## Safe cuts -/

section Cuts

variable (profile : TerminalProtocolProfile) {cursorPosition : Option (UInt16 × UInt16)}

/-- A cut that leaves no trace.  What the CSI pass sees on its two sides is the text
that the OSC pass leaves visible. -/
structure CutSafe (before chunk : List Char) : Prop where
  introducersWhole : IntroducersWhole before chunk
  sequencesHarmless : SequencesHarmless (processOsc profile before).result.data
    (processOsc profile ((processOsc profile before).pending ++ chunk)).result.data
  /-- A call answers its colour queries first, so none may come after a CSI query. -/
  inOrder : (∀ query ∈ csiQueries, ¬ query <:+: (processOsc profile before).result.data) ∨
    NoColorQuery ((processOsc profile before).pending ++ chunk)

def CutsSafe (chunks : List (List Char)) : Prop :=
  ∀ seen chunk, seen ++ [chunk] <+: chunks → CutSafe profile seen.flatten chunk

variable {profile}

/-- The order of the answers is that of one call. -/
theorem CutSafe.responses_comm {before chunk : List Char} (safe : CutSafe profile before chunk) :
    (processOsc profile ((processOsc profile before).pending ++ chunk)).result.responses ++
        (processCsi cursorPosition (processOsc profile before).result.data).responses =
      (processCsi cursorPosition (processOsc profile before).result.data).responses ++
        (processOsc profile ((processOsc profile before).pending ++ chunk)).result.responses := by
  rcases safe.inOrder with noCsiQuery | noColorQuery
  · rw [processCsi_of_no_query noCsiQuery]
    simp [visible]
  · obtain ⟨front, passes, _⟩ := processOsc_of_noColorQuery profile noColorQuery
    rw [passes]
    simp [visible]

/-- Over a safe cut, two calls are one. -/
theorem CutSafe.passCsi_append {before chunk : List Char} (safe : CutSafe profile before chunk)
    (fit : ColorSequencesFit (before ++ chunk)) :
    (processOsc profile (before ++ chunk)).passCsi cursorPosition =
      (processWithCursor profile cursorPosition (processOsc profile before).pending chunk).after
        ((processOsc profile before).passCsi cursorPosition).result := by
  have csi : processCsi cursorPosition (_ ++ _) = _ := processCsi_append safe.sequencesHarmless
  have order : _ ++ (processCsi cursorPosition _).responses = _ := safe.responses_comm
  rw [processOsc_append safe.introducersWhole fit, processWithCursor_eq]
  generalize processOsc profile before = first at *
  generalize processOsc profile (first.pending ++ chunk) = next at *
  simp only [Filtered.passCsi, Filtered.after, append_data, append_responses,
    append_answeredQueries, csi]
  have responses : first.result.responses ++ next.result.responses ++
        ((processCsi cursorPosition first.result.data).responses ++
          (processCsi cursorPosition next.result.data).responses) =
      (first.result.responses ++ (processCsi cursorPosition first.result.data).responses) ++
        (next.result.responses ++ (processCsi cursorPosition next.result.data).responses) := by
    rw [List.append_assoc, ← List.append_assoc next.result.responses, order]
    simp only [List.append_assoc]
  rw [responses]
  rfl

variable (cursorPosition) in
theorem processChunks_eq_of_cutsSafe {chunks : List (List Char)} (safe : CutsSafe profile chunks)
    (fit : ColorSequencesFit chunks.flatten) :
    processChunks profile cursorPosition chunks =
      (processOsc profile chunks.flatten).passCsi cursorPosition := by
  induction chunks using List.reverseRecOn with
  | nil =>
      rw [List.flatten_nil, processOsc_nil, Filtered.passCsi]
      simp only [visible, processCsi_nil, List.append_nil]
      rfl
  | append_singleton chunks chunk inductionHypothesis =>
      rw [List.flatten_concat] at fit ⊢
      have sooner : CutsSafe profile chunks := by
        intro seen next isSeen
        exact safe seen next (isSeen.trans (List.prefix_append chunks [chunk]))
      rw [processChunks_append_singleton, inductionHypothesis sooner fit.of_append_left,
        (safe chunks chunk List.prefix_rfl).passCsi_append fit]
      rfl

end Cuts

end Yggterm.Reader
