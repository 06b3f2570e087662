import Yggterm.Reader.SafeCuts

/-!
# Read boundaries and the protocol filter

The filter holds back a colour sequence whose introducer has arrived whole, and
nothing else.  A text comes through all its cuts alike exactly if it contains no
query to be answered and no colour sequence that stays open.
-/

namespace Yggterm.Reader

open Search TerminalProtocolFilterResult

/-- Nothing in the text is answered, wherever it is cut: no CSI query stands in it,
and every colour sequence has its end and is no query. -/
structure QueryFree (text : List Char) : Prop where
  noCsiQuery : ∀ query ∈ csiQueries, ¬ query <:+: text
  noColorQuery : ∀ before content, text = before ++ (esc :: ']' :: content) →
    oscSequenceMightNeedFiltering content = true →
      ∃ closed, closing content = some closed ∧ parseOscColorQueryContent closed.content = none

theorem QueryFree.prefix_noColorQuery {text later : List Char} (free : QueryFree (text ++ later)) :
    NoColorQuery text := by
  intro before content closed isText needed isClosed
  have whole : text ++ later = before ++ (esc :: ']' :: (content ++ later)) := by simp [isText]
  obtain ⟨found, isFound, noQuery⟩ := free.noColorQuery before (content ++ later) whole
    (oscSequenceMightNeedFiltering_append needed later)
  rw [closing_append isClosed later] at isFound
  cases isFound
  exact noQuery

section Filter

variable {profile : TerminalProtocolProfile} {cursorPosition : Option (UInt16 × UInt16)}

theorem passCsi_of_no_query {osc : Filtered} {front : List Char}
    (passes : osc.result = visible front)
    (noQuery : ∀ query ∈ csiQueries, ¬ query <:+: front) :
    (osc.passCsi cursorPosition).result = visible front := by
  rw [Filtered.passCsi, passes]
  simp only [visible, processCsi_of_no_query noQuery, List.append_nil]

theorem processWithCursor_of_free {pending data : List Char}
    (noColorQuery : NoColorQuery (pending ++ data))
    (noCsiQuery : ∀ query ∈ csiQueries, ¬ query <:+: pending ++ data) :
    ∃ front, (processWithCursor profile cursorPosition pending data).result = visible front ∧
      front ++ (processWithCursor profile cursorPosition pending data).pending =
          pending ++ data := by
  obtain ⟨front, passes, isText⟩ := processOsc_of_noColorQuery profile noColorQuery
  rw [processWithCursor_eq]
  refine ⟨front, passCsi_of_no_query passes ?_, isText⟩
  intro query isQuery inFront
  have isFront : front <+: pending ++ data := ⟨_, isText⟩
  exact noCsiQuery query isQuery (inFront.trans isFront.isInfix)

/-- What has come out of a text without queries and what is held back make up the
text. -/
theorem processChunks_of_queryFree {chunks : List (List Char)} {later : List Char}
    (free : QueryFree (chunks.flatten ++ later)) :
    ∃ front, (processChunks profile cursorPosition chunks).result = visible front ∧
      front ++ (processChunks profile cursorPosition chunks).pending = chunks.flatten := by
  induction chunks using List.reverseRecOn generalizing later with
  | nil => exact ⟨[], rfl, rfl⟩
  | append_singleton chunks chunk inductionHypothesis =>
      rw [List.flatten_concat] at free ⊢
      rw [processChunks_append_singleton, Filtered.feed]
      have sooner : QueryFree (chunks.flatten ++ (chunk ++ later)) := by rwa [← List.append_assoc]
      obtain ⟨front, passed, isSeen⟩ := inductionHypothesis sooner
      generalize processChunks profile cursorPosition chunks = filtered at *
      have isText : front ++ (filtered.pending ++ chunk) = chunks.flatten ++ chunk := by
        rw [← List.append_assoc, isSeen]
      have noColorQuery : NoColorQuery (filtered.pending ++ chunk) :=
        (isText ▸ free.prefix_noColorQuery).of_append
      have noCsiQuery : ∀ query ∈ csiQueries, ¬ query <:+: filtered.pending ++ chunk := by
        intro query isQuery inChunk
        refine free.noCsiQuery query isQuery (inChunk.trans ⟨front, later, ?_⟩)
        rw [isText]
      obtain ⟨next, passes, isNext⟩ := processWithCursor_of_free noColorQuery noCsiQuery
      refine ⟨front ++ next, ?_, ?_⟩
      · rw [Filtered.after_result, passed, passes, visible_append]
      · rw [Filtered.after_pending, List.append_assoc, isNext, isText]

theorem processChunks_pending (chunks : List (List Char)) :
    (processChunks profile cursorPosition chunks).pending = [] ∨
      ∃ content, (processChunks profile cursorPosition chunks).pending = esc :: ']' :: content ∧
        oscSequenceMightNeedFiltering content = true ∧ closing content = none := by
  cases chunks using List.reverseRecOn with
  | nil => exact .inl rfl
  | append_singleton chunks chunk =>
      rw [processChunks_append_singleton, Filtered.feed, Filtered.after_pending,
        processWithCursor_eq]
      exact processOsc_pending _

/-- A text without queries passes, however it is cut. -/
theorem processChunks_result_of_queryFree {chunks : List (List Char)}
    (free : QueryFree chunks.flatten) :
    (processChunks profile cursorPosition chunks).result = visible chunks.flatten := by
  have whole : QueryFree (chunks.flatten ++ []) := by rwa [List.append_nil]
  obtain ⟨front, passes, isText⟩ := processChunks_of_queryFree whole
  rcases processChunks_pending chunks with nothing | ⟨content, isPending, needed, isOpen⟩
  · rw [nothing, List.append_nil] at isText
    rw [passes, isText]
  · rw [isPending] at isText
    obtain ⟨closed, isClosed, _⟩ := free.noColorQuery front content isText.symm needed
    rw [isOpen] at isClosed
    cases isClosed

/-! ## Cuts that give a query away -/

/-- A text cut between any two characters. -/
def spread (text : List Char) : List (List Char) := text.map ([·])

@[simp]
theorem flatten_spread (text : List Char) : (spread text).flatten = text := by
  induction text with
  | nil => rfl
  | cons char rest inductionHypothesis =>
      exact congrArg (char :: ·) inductionHypothesis

theorem processWithCursor_singleton (char : Char) :
    processWithCursor profile cursorPosition [] [char] =
      { result := visible [char], pending := [] } := by
  have osc : processOsc profile [char] = { result := visible [char], pending := [] } := by
    rw [processOsc_skip (by simp [introduces]), processOsc_nil]
    rfl
  have csi : processCsi cursorPosition [char] = visible [char] := by
    rw [processCsi_skip (by simp), processCsi_nil]
    rfl
  rw [processWithCursor_eq, List.nil_append, osc, Filtered.passCsi]
  simp [visible, csi]

/-- Single characters pass: none of them is a sequence. -/
theorem foldl_feed_spread (text : List Char) (result : TerminalProtocolFilterResult) :
    (spread text).foldl (Filtered.feed profile cursorPosition) { result, pending := [] } =
      { result := result ++ visible text, pending := [] } := by
  induction text generalizing result with
  | nil => simp [spread]
  | cons char rest inductionHypothesis =>
      have step : Filtered.feed profile cursorPosition { result, pending := [] } [char] =
          { result := result ++ visible [char], pending := [] } := by
        rw [Filtered.feed, processWithCursor_singleton]
        rfl
      change (spread rest).foldl _ (Filtered.feed _ _ _ [char]) = _
      rw [step, inductionHypothesis, append_assoc]
      rfl

theorem processChunks_spread (text : List Char) :
    processChunks profile cursorPosition (spread text) =
        { result := visible text, pending := [] } :=
  foldl_feed_spread text (visible [])

theorem data_processChunks_of_withheld {before middle after : List Char}
    (nothing : (processWithCursor profile cursorPosition [] middle).result.data = [])
    (settled : (processWithCursor profile cursorPosition [] middle).pending = [] ∨ after = []) :
    (processChunks profile cursorPosition (spread before ++ middle :: spread after)).result.data =
      before ++ after := by
  have sofar : (spread before).foldl (Filtered.feed profile cursorPosition)
      { result := visible [], pending := [] } = _ := foldl_feed_spread before (visible [])
  rw [processChunks, List.foldl_append, sofar, List.foldl_cons, Filtered.feed]
  dsimp only
  rcases settled with released | rfl
  · rw [Filtered.after, released, foldl_feed_spread]
    simp [visible, nothing]
  · simp [spread, visible, nothing]

variable (profile cursorPosition) in
/-- Wherever the text is cut, its chunks give what one call gives. -/
def CutsAgree (text : List Char) : Prop :=
  ∀ chunks : List (List Char), chunks.flatten = text →
    (processChunks profile cursorPosition chunks).result =
      (processWithCursor profile cursorPosition [] text).result

/-- A piece that leaves nothing visible in a call of its own would be seen if it came
character by character. -/
theorem CutsAgree.eq_nil {before middle after : List Char}
    (agree : CutsAgree profile cursorPosition (before ++ (middle ++ after)))
    (nothing : (processWithCursor profile cursorPosition [] middle).result.data = [])
    (settled : (processWithCursor profile cursorPosition [] middle).pending = [] ∨ after = []) :
    middle = [] := by
  have apart := agree (spread (before ++ (middle ++ after))) (flatten_spread _)
  have together := agree (spread before ++ middle :: spread after) (by simp)
  have same := congrArg TerminalProtocolFilterResult.data (together.trans apart.symm)
  rw [processChunks_spread, data_processChunks_of_withheld nothing settled] at same
  have shorter := congrArg List.length same
  simp only [visible, List.length_append] at shorter
  exact List.eq_nil_of_length_eq_zero (by omega)

theorem csiQueries_spec {query : List Char} (isQuery : query ∈ csiQueries) :
    ']' ∉ query ∧ ∃ tail, query = esc :: '[' :: tail ∧ upToLetter tail = some (tail, []) := by
  simp only [csiQueries, List.mem_cons, List.not_mem_nil, or_false] at isQuery
  rcases isQuery with rfl | rfl | rfl | rfl | rfl | rfl
  all_goals exact ⟨by decide, _, rfl, by decide⟩

theorem processOsc_of_not_mem {text : List Char} (absent : ']' ∉ text) :
    processOsc profile text = { result := visible text, pending := [] } := by
  apply processOsc_of_none
  by_contra found
  obtain ⟨⟨before, content⟩, found⟩ := Option.ne_none_iff_exists'.mp found
  exact absent (by simp [findText_eq found])

theorem processWithCursor_csiQuery {query : List Char} (isQuery : query ∈ csiQueries) :
    (processWithCursor profile cursorPosition [] query).result.data = [] ∧
      (processWithCursor profile cursorPosition [] query).pending = [] := by
  obtain ⟨absent, tail, isSequence, ends⟩ := csiQueries_spec isQuery
  obtain ⟨response, responds⟩ : ∃ response, csiResponse cursorPosition query = some response := by
    apply Option.ne_none_iff_exists'.mp
    intro silent
    exact csiResponse_eq_none_iff.mp silent isQuery
  rw [processWithCursor_eq, List.nil_append, processOsc_of_not_mem absent, Filtered.passCsi]
  refine ⟨?_, rfl⟩
  have csi : processCsi cursorPosition query = answered response := by
    rw [isSequence] at responds ⊢
    rw [processCsi_sequence ends, processCsiSequence, responds, processCsi_nil]
    simp
  simp [visible, csi, answered]

theorem answerQueries_data (queries : List TerminalProtocolColorQuery) :
    (answerQueries profile queries).data = [] := by
  induction queries with
  | nil => rfl
  | cons query queries inductionHypothesis =>
      rw [answerQueries]
      split
      · simp [inductionHypothesis]
      · exact inductionHypothesis

theorem oscSequenceMightNeedFiltering_of_query {content : List Char}
    {queries : List TerminalProtocolColorQuery}
    (isQuery : parseOscColorQueryContent content = some queries) :
    oscSequenceMightNeedFiltering content = true := by
  rw [parseOscColorQueryContent] at isQuery
  split at isQuery
  · next isForeground => simp [isForeground, oscSequenceMightNeedFiltering]
  · split at isQuery
    · next isBackground => simp [isBackground, oscSequenceMightNeedFiltering]
    · split at isQuery
      · next isPalette =>
          simp [oscSequenceMightNeedFiltering, List.isPrefixOf_iff_prefix.mpr isPalette]
      · cases isQuery

theorem processWithCursor_colorQuery {content terminator : List Char}
    {queries : List TerminalProtocolColorQuery}
    (isClosed : closing (content ++ terminator) = some { content, terminator, rest := [] })
    (isQuery : parseOscColorQueryContent content = some queries) :
    (processWithCursor profile cursorPosition [] (esc :: ']' :: (content ++
      terminator))).result.data =
        [] ∧
      (processWithCursor profile cursorPosition []
        (esc :: ']' :: (content ++ terminator))).pending = [] := by
  have needed := oscSequenceMightNeedFiltering_append
    (oscSequenceMightNeedFiltering_of_query isQuery) terminator
  rw [processWithCursor_eq, List.nil_append, processOsc_query needed isClosed isQuery,
    processOsc_nil, Filtered.passCsi]
  simp [answerQueries_data, processCsi_nil, visible]

theorem processWithCursor_open {content : List Char}
    (needed : oscSequenceMightNeedFiltering content = true) (isOpen : closing content = none)
    (fits : byteLength (esc :: ']' :: content) ≤ terminalProtocolMaxPendingBytes) :
    (processWithCursor profile cursorPosition [] (esc :: ']' :: content)).result.data = [] := by
  rw [processWithCursor_eq, List.nil_append, processOsc_open needed isOpen fits, Filtered.passCsi]
  simp [visible, processCsi_nil]

theorem CutsAgree.queryFree {text : List Char} (agree : CutsAgree profile cursorPosition text)
    (fit : ColorSequencesFit text) : QueryFree text := by
  constructor
  · intro query isQuery inText
    obtain ⟨before, after, isText⟩ := inText
    rw [List.append_assoc] at isText
    subst isText
    obtain ⟨nothing, released⟩ := processWithCursor_csiQuery isQuery
    have empty := agree.eq_nil nothing (.inl released)
    rw [empty] at isQuery
    revert isQuery
    decide
  · intro before content isText needed
    cases isClosed : closing content with
    | none =>
        have fits := fit before content isText needed
        rw [stringBody, isClosed] at fits
        subst isText
        rw [← List.append_nil (esc :: ']' :: content)] at agree
        cases agree.eq_nil (processWithCursor_open needed isClosed fits) (.inr rfl)
    | some closed =>
        refine ⟨closed, rfl, ?_⟩
        by_contra isQuery
        obtain ⟨queries, isQuery⟩ := Option.ne_none_iff_exists'.mp isQuery
        obtain ⟨nothing, released⟩ :=
          processWithCursor_colorQuery (closing_of_rest_nil isClosed) isQuery
        have whole : text = before ++
            ((esc :: ']' :: (closed.content ++ closed.terminator)) ++ closed.rest) := by
          simp [isText, ← closing_eq isClosed]
        subst whole
        cases agree.eq_nil nothing (.inl released)

theorem QueryFree.cutsAgree {text : List Char} (free : QueryFree text) :
    CutsAgree profile cursorPosition text := by
  intro chunks isText
  have atOnce : processWithCursor profile cursorPosition [] text =
      processChunks profile cursorPosition [text] := rfl
  have whole : [text].flatten = text := List.append_nil text
  have freeAtOnce : QueryFree [text].flatten := by rwa [whole]
  have freeInChunks : QueryFree chunks.flatten := by rwa [isText]
  rw [atOnce, processChunks_result_of_queryFree freeInChunks,
    processChunks_result_of_queryFree freeAtOnce, isText, whole]

end Filter

/-- A text gives the same at all its cuts exactly if it holds no query that is answered
and no colour sequence that stays open.  Whatever it holds, cuts that are safe give
what the whole text gives. -/
theorem cutsAgree_iff_queryFree (profile : TerminalProtocolProfile)
    (cursorPosition : Option (UInt16 × UInt16)) (text : List Char) (fit : ColorSequencesFit text) :
    (CutsAgree profile cursorPosition text ↔ QueryFree text) ∧
      ∀ chunks : List (List Char), chunks.flatten = text → CutsSafe profile chunks →
        (processChunks profile cursorPosition chunks).result =
          (processWithCursor profile cursorPosition [] text).result := by
  refine ⟨⟨?_, ?_⟩, ?_⟩
  · intro agree
    exact agree.queryFree fit
  · intro free
    exact free.cutsAgree
  · intro chunks isText safe
    subst isText
    rw [processChunks_eq_of_cutsSafe cursorPosition safe fit, processWithCursor_eq]
    rfl

theorem colorSequencesFit_of_short {text : List Char}
    (short : byteLength text ≤ terminalProtocolMaxPendingBytes) : ColorSequencesFit text := by
  intro before content isText _
  have within := byteLength_stringBody_le content
  rw [isText] at short
  simp only [byteLength_append, byteLength_cons] at short ⊢
  omega

def blackProfile : TerminalProtocolProfile where
  foreground := (0xff, 0xff, 0xff)
  background := (0, 0, 0)
  palette := Vector.replicate 16 (0, 0, 0)

theorem cutSafe_of_nothing_visible {profile : TerminalProtocolProfile} {before chunk : List Char}
    (whole : IntroducersWhole before chunk)
    (nothing : (processOsc profile before).result.data = []) : CutSafe profile before chunk := by
  refine ⟨whole, ?_, .inl ?_⟩
  · intro opened tail after isOpened nonempty
    rw [nothing] at isOpened
    exact absurd (List.suffix_nil.mp isOpened) nonempty
  · rw [nothing]
    decide

/-- A foreground query, cut before its terminator. -/
theorem cutsSafe_of_held_query :
    CutsSafe blackProfile [[esc, ']', '1', '0', ';', '?'], stringTerminator] := by
  intro seen chunk isSeen
  have shorter := isSeen.length_le
  match seen, isSeen, shorter with
  | [], _, _ =>
      apply cutSafe_of_nothing_visible
      · intro start isStart
        exact absurd (List.suffix_nil.mp isStart) (List.cons_ne_nil _ _)
      · rw [List.flatten_nil, processOsc_nil]
        rfl
  | [first], isSeen, _ =>
      obtain rfl : first = [esc, ']', '1', '0', ';', '?'] := (List.cons_prefix_cons.mp isSeen).1
      apply cutSafe_of_nothing_visible
      · intro start isStart noEsc _
        have isWhole : start = [']', '1', '0', ';', '?'] := by
          simpa [List.suffix_cons_iff, esc] using isStart
        subst isWhole
        decide
      · have held : processOsc blackProfile [esc, ']', '1', '0', ';', '?'] =
            { result := visible [], pending := [esc, ']', '1', '0', ';', '?'] } :=
          processOsc_open (by decide) (by decide) (by decide)
        rw [List.flatten_singleton, held]
        rfl
  | _ :: _ :: _, _, shorter =>
      simp only [List.length_append, List.length_cons, List.length_nil] at shorter
      omega

/-- A change of colour may be cut anywhere, and a foreground query before its
terminator. -/
theorem cuts_of_colour_change_and_held_query :
    CutsAgree blackProfile none [esc, '[', '3', '1', 'm'] ∧
      (processChunks blackProfile none
          [[esc, ']', '1', '0', ';', '?'], stringTerminator]).result =
        (processWithCursor blackProfile none []
          ([esc, ']', '1', '0', ';', '?'] ++ stringTerminator)).result := by
  have free : QueryFree [esc, '[', '3', '1', 'm'] := by
    constructor
    · decide
    · intro before content isText
      have member : ']' ∈ [esc, '[', '3', '1', 'm'] := by simp [isText]
      exact absurd member (by decide)
  constructor
  · exact (cutsAgree_iff_queryFree _ _ _ (colorSequencesFit_of_short (by decide))).1.mpr free
  · exact (cutsAgree_iff_queryFree _ _ _ (colorSequencesFit_of_short (by decide))).2 _ rfl
      cutsSafe_of_held_query

/-- A request for the cursor position that arrives in two reads is shown and not
answered, short as the whole text is. -/
theorem cut_cursor_request_is_shown :
    ¬ ∀ (profile : TerminalProtocolProfile) (cursorPosition : Option (UInt16 × UInt16))
      (chunks : List (List Char)),
      byteLength chunks.flatten ≤ terminalProtocolMaxPendingBytes →
        (processChunks profile cursorPosition chunks).result =
          (processWithCursor profile cursorPosition [] chunks.flatten).result := by
  intro allAgree
  have short : byteLength [[esc, '['], ['6', 'n']].flatten ≤ terminalProtocolMaxPendingBytes := by
    decide
  have same := congrArg TerminalProtocolFilterResult.data (allAgree blackProfile none _ short)
  have front : processWithCursor blackProfile none [] [esc, '['] =
      { result := visible [esc, '['], pending := [] } := by
    have csi : processCsi none [esc, '['] = visible [esc, '['] := processCsi_open rfl
    rw [processWithCursor_eq, processOsc_of_not_mem (by decide), Filtered.passCsi]
    simp [visible, csi]
  have back : processWithCursor blackProfile none [] ['6', 'n'] =
      { result := visible ['6', 'n'], pending := [] } := by
    rw [processWithCursor_eq, processOsc_of_not_mem (by decide), Filtered.passCsi]
    simp [visible, processCsi_skip, processCsi_nil, esc]
  have cut : (processChunks blackProfile none [[esc, '['], ['6', 'n']]).result.data =
      [esc, '[', '6', 'n'] := by
    simp [processChunks, Filtered.feed, Filtered.after, front, back, visible]
  have whole : (processWithCursor blackProfile none [] [esc, '[', '6', 'n']).result.data = [] :=
    (processWithCursor_csiQuery (by decide)).1
  rw [cut] at same
  exact List.cons_ne_nil _ _ (same.trans whole)

end Yggterm.Reader
