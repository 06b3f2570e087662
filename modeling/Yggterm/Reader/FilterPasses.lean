import Yggterm.Reader.ProtocolFilter

/-!
# The two passes of the protocol filter

The equations of the OSC pass and of the CSI pass, one for each thing that can stand
at the front of a text, and the induction along each pass.  A text without queries
passes unchanged.
-/

namespace Yggterm.Reader

open Search TerminalProtocolFilterResult

/-! ## The OSC pass, character by character -/

/-- A colour sequence begins here. -/
def introduces (text : List Char) : Bool :=
  text.head? = some esc && text.tail.head? = some ']' &&
    oscSequenceMightNeedFiltering text.tail.tail

theorem introduces_iff {text : List Char} :
    introduces text = true ↔
      ∃ content, text = esc :: ']' :: content ∧ oscSequenceMightNeedFiltering content = true := by
  constructor
  · intro begins
    simp only [introduces, Bool.and_eq_true, decide_eq_true_eq] at begins
    obtain ⟨⟨isEsc, isBracket⟩, needed⟩ := begins
    obtain ⟨rest, rfl⟩ := List.head?_eq_some_iff.mp isEsc
    obtain ⟨content, rfl⟩ := List.head?_eq_some_iff.mp isBracket
    exact ⟨content, rfl, needed⟩
  · rintro ⟨content, rfl, needed⟩
    simp [introduces, needed]

/-- What the content of a colour sequence starts with. -/
def colorIntroducers : List (List Char) :=
  [['1', '0', ';', '?'], ['1', '1', ';', '?'], ['4', ';']]

theorem oscSequenceMightNeedFiltering_iff {content : List Char} :
    oscSequenceMightNeedFiltering content = true ↔
      ∃ introducer ∈ colorIntroducers, introducer <+: content := by
  simp [oscSequenceMightNeedFiltering, colorIntroducers, or_assoc]

theorem oscSequenceMightNeedFiltering_append {content : List Char}
    (needed : oscSequenceMightNeedFiltering content = true) (more : List Char) :
    oscSequenceMightNeedFiltering (content ++ more) = true := by
  obtain ⟨introducer, member, here⟩ := oscSequenceMightNeedFiltering_iff.mp needed
  apply oscSequenceMightNeedFiltering_iff.mpr
  exact ⟨introducer, member, here.trans (List.prefix_append content more)⟩

section Osc

variable {profile : TerminalProtocolProfile}

variable (profile) in
/-- What the pass makes of a text that begins with `ESC ]`. -/
def processSequence (content : List Char) : Filtered :=
  if oscSequenceMightNeedFiltering content then
    match closing content with
    | none =>
        if terminalProtocolMaxPendingBytes < byteLength (esc :: ']' :: content) then
          { result := visible (esc :: ']' :: content), pending := [] }
        else { result := visible [], pending := esc :: ']' :: content }
    | some closed =>
        match parseOscColorQueryContent closed.content with
        | none =>
            (processOsc profile closed.rest).after
              (visible (esc :: ']' :: (closed.content ++ closed.terminator)))
        | some queries => (processOsc profile closed.rest).after (answerQueries profile queries)
  else (processOsc profile content).after (visible [esc, ']'])

theorem Filtered.after_after (first second : TerminalProtocolFilterResult) (later : Filtered) :
    (later.after second).after first = later.after (first ++ second) := by
  simp [Filtered.after, append_assoc]

@[simp]
theorem Filtered.after_visible_nil (later : Filtered) : later.after (visible []) = later := rfl

theorem processOsc_of_none {text : List Char} (absent : findText [esc, ']'] text = none) :
    processOsc profile text = { result := visible text, pending := [] } := by
  rw [processOsc]
  split
  · rfl
  · next found => simp [absent] at found

theorem processOsc_of_some {text before content : List Char}
    (found : findText [esc, ']'] text = some (before, content)) :
    processOsc profile text = (processSequence profile content).after (visible before) := by
  rw [processOsc, processSequence]
  split
  · next absent => simp [absent] at found
  · next isFound =>
      rw [found] at isFound
      cases isFound
      split
      · split
        · next isOpen =>
            rw [findOscTerminator_eq_closing] at isOpen
            simp only [isOpen]
            split
            · next large =>
                rw [if_pos (by exact large)]
                rfl
            · next small =>
                rw [if_neg (by exact small)]
                simp [Filtered.after]
        · next closed isClosed =>
            rw [findOscTerminator_eq_closing] at isClosed
            simp only [isClosed]
            split <;> simp_all [Filtered.after_after]
      · simp [Filtered.after_after]

theorem processOsc_nil : processOsc profile [] = { result := visible [], pending := [] } :=
  processOsc_of_none rfl

theorem processOsc_sequence (content : List Char) :
    processOsc profile (esc :: ']' :: content) = processSequence profile content := by
  have found : findText [esc, ']'] ([esc, ']'] ++ content) = some ([], content) :=
    findText_append_self (by simp) content
  exact processOsc_of_some found

theorem processOsc_of_not_isPrefix {char : Char} {rest : List Char}
    (notHere : ¬ [esc, ']'] <+: char :: rest) :
    processOsc profile (char :: rest) = (processOsc profile rest).after (visible [char]) := by
  have shifts : findText [esc, ']'] (char :: rest) =
      (findText [esc, ']'] rest).map fun found => (char :: found.1, found.2) := by
    rw [findText, if_neg notHere]
  cases later : findText [esc, ']'] rest with
  | none =>
      rw [later] at shifts
      rw [processOsc_of_none shifts, processOsc_of_none later]
      rfl
  | some found =>
      obtain ⟨before, content⟩ := found
      rw [later] at shifts
      rw [processOsc_of_some shifts, processOsc_of_some later, Filtered.after_after]
      rfl

/-- Where no colour sequence begins, the character passes. -/
theorem processOsc_skip {char : Char} {rest : List Char}
    (skips : introduces (char :: rest) = false) :
    processOsc profile (char :: rest) = (processOsc profile rest).after (visible [char]) := by
  by_cases here : [esc, ']'] <+: char :: rest
  · obtain ⟨content, isText⟩ := here
    cases isText
    have notNeeded : oscSequenceMightNeedFiltering content = false := by
      simpa [introduces] using skips
    have bracket : ¬ [esc, ']'] <+: ']' :: content := by simp [esc]
    change processOsc profile (esc :: ']' :: content) =
      (processOsc profile (']' :: content)).after (visible [esc])
    rw [processOsc_sequence, processSequence, notNeeded, processOsc_of_not_isPrefix bracket,
      Filtered.after_after]
    rfl
  · exact processOsc_of_not_isPrefix here

theorem processOsc_open {content : List Char}
    (needed : oscSequenceMightNeedFiltering content = true) (isOpen : closing content = none)
    (fits : byteLength (esc :: ']' :: content) ≤ terminalProtocolMaxPendingBytes) :
    processOsc profile (esc :: ']' :: content) =
      { result := visible [], pending := esc :: ']' :: content } := by
  rw [processOsc_sequence, processSequence, if_pos needed, isOpen]
  exact if_neg (Nat.not_lt.mpr fits)

theorem processOsc_other {content : List Char} {closed : Closing}
    (needed : oscSequenceMightNeedFiltering content = true)
    (isClosed : closing content = some closed)
    (noQuery : parseOscColorQueryContent closed.content = none) :
    processOsc profile (esc :: ']' :: content) =
      (processOsc profile closed.rest).after
        (visible (esc :: ']' :: (closed.content ++ closed.terminator))) := by
  rw [processOsc_sequence, processSequence, if_pos needed, isClosed]
  simp only [noQuery]

theorem processOsc_query {content : List Char} {closed : Closing}
    {queries : List TerminalProtocolColorQuery}
    (needed : oscSequenceMightNeedFiltering content = true)
    (isClosed : closing content = some closed)
    (isQuery : parseOscColorQueryContent closed.content = some queries) :
    processOsc profile (esc :: ']' :: content) =
      (processOsc profile closed.rest).after (answerQueries profile queries) := by
  rw [processOsc_sequence, processSequence, if_pos needed, isClosed]
  simp only [isQuery]

/-- Induction along the pass. -/
theorem oscInduction {motive : List Char → Prop} (nil : motive [])
    (skip : ∀ char rest, introduces (char :: rest) = false → motive rest → motive (char :: rest))
    (opened : ∀ content, oscSequenceMightNeedFiltering content = true → closing content = none →
      motive (esc :: ']' :: content))
    (closed : ∀ content found, oscSequenceMightNeedFiltering content = true →
      closing content = some found → motive found.rest → motive (esc :: ']' :: content))
    (text : List Char) : motive text := by
  match text with
  | [] => exact nil
  | char :: rest =>
      cases begins : introduces (char :: rest) with
      | false => exact skip char rest begins (oscInduction nil skip opened closed rest)
      | true =>
          obtain ⟨content, isText, needed⟩ := introduces_iff.mp begins
          rw [isText]
          cases isClosed : closing content with
          | none => exact opened content needed isClosed
          | some found =>
              have shorter : found.rest.length < (char :: rest).length := by
                have := closing_shrinks isClosed
                rw [isText]
                simp only [List.length_cons]
                omega
              exact closed content found needed isClosed
                (oscInduction nil skip opened closed found.rest)
termination_by text.length
decreasing_by
  · exact Nat.lt_succ_self _
  · exact shorter

/-- What is held back is a colour sequence without its end. -/
theorem processOsc_pending (text : List Char) :
    (processOsc profile text).pending = [] ∨
      ∃ content, (processOsc profile text).pending = esc :: ']' :: content ∧
        oscSequenceMightNeedFiltering content = true ∧ closing content = none := by
  induction text using oscInduction with
  | nil => exact .inl (by rw [processOsc_nil])
  | skip char rest skips inductionHypothesis =>
      rw [processOsc_skip skips]
      exact inductionHypothesis
  | opened content needed isOpen =>
      rw [processOsc_sequence, processSequence, if_pos needed, isOpen]
      dsimp only
      split
      · exact .inl rfl
      · exact .inr ⟨content, rfl, needed, isOpen⟩
  | closed content found needed isClosed inductionHypothesis =>
      cases parsed : parseOscColorQueryContent found.content with
      | none =>
          rw [processOsc_other needed isClosed parsed]
          exact inductionHypothesis
      | some queries =>
          rw [processOsc_query needed isClosed parsed]
          exact inductionHypothesis

/-- No closed colour sequence of the text is a query. -/
def NoColorQuery (text : List Char) : Prop :=
  ∀ before content closed, text = before ++ (esc :: ']' :: content) →
    oscSequenceMightNeedFiltering content = true → closing content = some closed →
      parseOscColorQueryContent closed.content = none

theorem NoColorQuery.of_append {first second : List Char}
    (noQuery : NoColorQuery (first ++ second)) :
    NoColorQuery second := by
  intro before content closed isSecond
  apply noQuery (first ++ before) content closed
  rw [isSecond, List.append_assoc]

variable (profile) in
/-- Without a query everything passes but the end that is held back. -/
theorem processOsc_of_noColorQuery {text : List Char} (noQuery : NoColorQuery text) :
    ∃ front, (processOsc profile text).result = visible front ∧
      front ++ (processOsc profile text).pending = text := by
  induction text using oscInduction with
  | nil => exact ⟨[], by rw [processOsc_nil], by rw [processOsc_nil]; rfl⟩
  | skip char rest skips inductionHypothesis =>
      have later : NoColorQuery ([char] ++ rest) := noQuery
      obtain ⟨front, passes, isRest⟩ := inductionHypothesis later.of_append
      rw [processOsc_skip skips]
      exact ⟨char :: front, by rw [Filtered.after_result, passes]; rfl, congrArg (char :: ·) isRest⟩
  | opened content needed isOpen =>
      rw [processOsc_sequence, processSequence, if_pos needed, isOpen]
      dsimp only
      split
      · exact ⟨esc :: ']' :: content, rfl, List.append_nil _⟩
      · exact ⟨[], rfl, rfl⟩
  | closed content found needed isClosed inductionHypothesis =>
      have whole : esc :: ']' :: content =
          (esc :: ']' :: (found.content ++ found.terminator)) ++ found.rest := by
        simp [← closing_eq isClosed]
      obtain ⟨front, passes, isRest⟩ := inductionHypothesis (whole ▸ noQuery).of_append
      rw [processOsc_other needed isClosed (noQuery [] content found rfl needed isClosed)]
      refine ⟨(esc :: ']' :: (found.content ++ found.terminator)) ++ front, ?_, ?_⟩
      · rw [Filtered.after_result, passes, visible_append]
      · rw [Filtered.after_pending, List.append_assoc, isRest, ← whole]

end Osc

/-! ## The CSI pass -/

/-- The sequences that are answered. -/
def csiQueries : List (List Char) :=
  [[esc, '[', '6', 'n'], [esc, '[', '5', 'n'], [esc, '[', 'c'], [esc, '[', '0', 'c'],
    [esc, '[', '>', 'c'], [esc, '[', '>', '0', 'c']]

section Csi

variable {cursorPosition : Option (UInt16 × UInt16)}

theorem csiResponse_eq_none_iff {sequence : List Char} :
    csiResponse cursorPosition sequence = none ↔ sequence ∉ csiQueries := by
  simp only [csiResponse, csiQueries, List.mem_cons, List.not_mem_nil, or_false]
  grind

theorem processCsi_nil : processCsi cursorPosition [] = visible [] := by
  rw [processCsi]

theorem processCsi_skip {char : Char} {rest : List Char}
    (skips : ¬ (char = esc ∧ rest.head? = some '[')) :
    processCsi cursorPosition (char :: rest) =
        visible [char] ++ processCsi cursorPosition rest := by
  rw [processCsi, if_neg skips]

theorem processCsi_open {body : List Char} (isOpen : upToLetter body = none) :
    processCsi cursorPosition (esc :: '[' :: body) = visible (esc :: '[' :: body) := by
  rw [processCsi, if_pos ⟨rfl, rfl⟩]
  split
  · next ends => simp [isOpen] at ends
  · rfl

variable (cursorPosition) in
/-- What becomes of a complete sequence. -/
def processCsiSequence (sequence : List Char) : TerminalProtocolFilterResult :=
  match csiResponse cursorPosition sequence with
  | some response => answered response
  | none => visible sequence

theorem processCsi_sequence {body tail after : List Char}
    (ends : upToLetter body = some (tail, after)) :
    processCsi cursorPosition (esc :: '[' :: body) =
      processCsiSequence cursorPosition (esc :: '[' :: tail) ++
          processCsi cursorPosition after := by
  rw [processCsi, if_pos ⟨rfl, rfl⟩]
  split
  · next isEnds =>
      rw [List.tail_cons, ends] at isEnds
      cases isEnds
      rw [processCsiSequence]
      cases csiResponse cursorPosition (esc :: '[' :: tail) <;> rfl
  · next isOpen => simp [ends] at isOpen

/-- Induction along the pass. -/
theorem csiInduction {motive : List Char → Prop} (nil : motive [])
    (skip : ∀ char rest, ¬ (char = esc ∧ rest.head? = some '[') → motive rest →
      motive (char :: rest))
    (opened : ∀ body, upToLetter body = none → motive (esc :: '[' :: body))
    (closed : ∀ body tail after, upToLetter body = some (tail, after) → motive after →
      motive (esc :: '[' :: body))
    (text : List Char) : motive text := by
  match text with
  | [] => exact nil
  | char :: rest =>
      by_cases begins : char = esc ∧ rest.head? = some '['
      · obtain ⟨isEsc, isBracket⟩ := begins
        obtain ⟨body, isRest⟩ := List.head?_eq_some_iff.mp isBracket
        rw [isEsc, isRest]
        cases ends : upToLetter body with
        | none => exact opened body ends
        | some found =>
            obtain ⟨tail, after⟩ := found
            have shorter : after.length < (char :: rest).length := by
              rw [isRest, upToLetter_eq ends]
              simp only [List.length_cons, List.length_append]
              omega
            exact closed body tail after ends (csiInduction nil skip opened closed after)
      · exact skip char rest begins (csiInduction nil skip opened closed rest)
termination_by text.length
decreasing_by
  · exact shorter
  · exact Nat.lt_succ_self _

/-- Without a query everything passes. -/
theorem processCsi_of_no_query {text : List Char}
    (noQuery : ∀ query ∈ csiQueries, ¬ query <:+: text) :
    processCsi cursorPosition text = visible text := by
  induction text using csiInduction with
  | nil => exact processCsi_nil
  | skip char rest skips inductionHypothesis =>
      have later := inductionHypothesis (by
        intro query isQuery inRest
        apply noQuery query isQuery
        exact inRest.trans (List.suffix_cons char rest).isInfix)
      rw [processCsi_skip skips, later, visible_append]
      rfl
  | opened body isOpen => exact processCsi_open isOpen
  | closed body tail after ends inductionHypothesis =>
      have whole : esc :: '[' :: body = (esc :: '[' :: tail) ++ after := by
        simp [← upToLetter_eq ends]
      rw [whole] at noQuery
      have later := inductionHypothesis (by
        intro query isQuery inAfter
        apply noQuery query isQuery
        exact inAfter.trans (List.suffix_append _ after).isInfix)
      have noResponse : csiResponse cursorPosition (esc :: '[' :: tail) = none := by
        apply csiResponse_eq_none_iff.mpr
        intro isQuery
        exact noQuery _ isQuery (List.prefix_append _ after).isInfix
      rw [processCsi_sequence ends, processCsiSequence, noResponse, later, visible_append, ← whole]

end Csi

/-! ## Both passes -/

section Filter

variable {profile : TerminalProtocolProfile} {cursorPosition : Option (UInt16 × UInt16)}

variable (cursorPosition) in
/-- The second pass over the outcome of the first. -/
def Filtered.passCsi (osc : Filtered) : Filtered :=
  let csi := processCsi cursorPosition osc.result.data
  { result :=
      { data := csi.data
        responses := osc.result.responses ++ csi.responses
        answeredQueries := osc.result.answeredQueries }
    pending := osc.pending }

/-- The early return of an empty call makes no difference. -/
theorem processWithCursor_eq (pending data : List Char) :
    processWithCursor profile cursorPosition pending data =
      (processOsc profile (pending ++ data)).passCsi cursorPosition := by
  rw [processWithCursor]
  split
  · next nothing =>
      obtain ⟨rfl, rfl⟩ := nothing
      rw [List.append_nil, processOsc_nil, Filtered.passCsi]
      simp only [visible, processCsi_nil, List.append_nil]
  · rfl

theorem processChunks_append_singleton (chunks : List (List Char)) (chunk : List Char) :
    processChunks profile cursorPosition (chunks ++ [chunk]) =
      (processChunks profile cursorPosition chunks).feed profile cursorPosition chunk := by
  simp [processChunks]

end Filter

end Yggterm.Reader
