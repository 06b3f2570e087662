import Yggterm.Library.Modes

/-!
# Payloads in bracketed paste

A payload with line breaks is wrapped (`yggterm-core/src/terminal_input.rs`) so that the
agent CLI that receives it takes the breaks as soft newlines and not as Enter.  The receiver
leaves its paste mode at the first closing marker, whoever wrote it.
-/

namespace Yggterm.InputLine

open Modes Runs

def bracketedPasteBegin : List Char := ['\x1b', '[', '2', '0', '0', '~']

def bracketedPasteEnd : List Char := ['\x1b', '[', '2', '0', '1', '~']

def isBracketedPasteBlock (data : List Char) : Bool :=
  bracketedPasteBegin.isPrefixOf data && bracketedPasteEnd.isSuffixOf data

def wrapAsBracketedPaste (data : List Char) : List Char :=
  if isBracketedPasteBlock data then data else bracketedPasteBegin ++ data ++ bracketedPasteEnd

/-! ## The receiver -/

def pasteMarks : Marks Char where
  lead := '\x1b'
  opening := ['[', '2', '0', '0', '~']
  closing := ['[', '2', '0', '1', '~']
  lead_not_mem_opening := by decide
  lead_not_mem_closing := by decide
  opening_not_prefix := by decide
  closing_not_prefix := by decide

/-- An agent CLI: inside a paste, or not, with the submits so far. -/
structure Receiver where
  listener : Listener Char
  submits : Nat

def Receiver.pasting (receiver : Receiver) : Bool := receiver.listener.inside

def isLineBreak (char : Char) : Bool := char = '\r' || char = '\n'

/-- A line break outside a paste is Enter. -/
def Receiver.receive (receiver : Receiver) (char : Char) : Receiver where
  listener := hear pasteMarks receiver.listener char
  submits :=
    if isLineBreak char && !receiver.pasting then receiver.submits + 1 else receiver.submits

def Receiver.feed (receiver : Receiver) (text : List Char) : Receiver :=
  run Receiver.receive receiver text

namespace Receiver

variable {receiver : Receiver}

theorem feed_append (first second : List Char) :
    receiver.feed (first ++ second) = (receiver.feed first).feed second :=
  run_append Receiver.receive receiver first second

theorem listener_feed (text : List Char) :
    (receiver.feed text).listener = run (hear pasteMarks) receiver.listener text := by
  induction text generalizing receiver with
  | nil => rfl
  | cons char rest inductionHypothesis => exact inductionHypothesis

theorem submits_receive (char : Char) : (receiver.receive char).submits =
    if isLineBreak char && !receiver.pasting then receiver.submits + 1 else receiver.submits :=
  rfl

theorem submits_le_receive (char : Char) :
    receiver.submits ≤ (receiver.receive char).submits := by
  rw [submits_receive]
  split
  · exact Nat.le_succ _
  · exact Nat.le_refl _

theorem submits_receive_iff (char : Char) :
    (receiver.receive char).submits = receiver.submits ↔
      (isLineBreak char = true → receiver.pasting = true) := by
  rw [submits_receive]
  cases isLineBreak char <;> cases receiver.pasting <;> simp

theorem submits_le_feed (text : List Char) : receiver.submits ≤ (receiver.feed text).submits := by
  induction text generalizing receiver with
  | nil => exact Nat.le_refl _
  | cons char rest inductionHypothesis =>
      exact (submits_le_receive char).trans inductionHypothesis

/-- Nothing is submitted where every line break comes inside a paste. -/
theorem submits_feed_iff (text : List Char) : (receiver.feed text).submits = receiver.submits ↔
    ∀ before char after, text = before ++ char :: after → isLineBreak char = true →
      (receiver.feed before).pasting = true := by
  induction text generalizing receiver with
  | nil => simp [feed]
  | cons first rest inductionHypothesis =>
      have rises : receiver.submits ≤ (receiver.receive first).submits := submits_le_receive first
      have later : (receiver.receive first).submits ≤ (receiver.feed (first :: rest)).submits :=
        submits_le_feed rest
      constructor
      · intro quiet before char after whole isBreak
        have quietFirst : (receiver.receive first).submits = receiver.submits := by omega
        have quietRest : ((receiver.receive first).feed rest).submits =
            (receiver.receive first).submits := quiet.trans quietFirst.symm
        cases before with
        | nil =>
            obtain ⟨rfl, rfl⟩ := List.cons.inj whole
            exact (submits_receive_iff first).mp quietFirst isBreak
        | cons head before =>
            obtain ⟨rfl, isRest⟩ := List.cons.inj whole
            exact inductionHypothesis.mp quietRest before char after isRest isBreak
      · intro pasted
        have quietFirst : (receiver.receive first).submits = receiver.submits :=
          (submits_receive_iff first).mpr (pasted [] first rest rfl)
        have quietRest : ((receiver.receive first).feed rest).submits =
            (receiver.receive first).submits := by
          apply inductionHypothesis.mpr
          intro before char after whole
          exact pasted (first :: before) char after (congrArg (first :: ·) whole)
        exact quietRest.trans quietFirst

/-- A text without line breaks submits nothing. -/
theorem submits_feed_of_no_break {text : List Char}
    (noBreak : text.any isLineBreak = false) :
    (receiver.feed text).submits = receiver.submits := by
  apply (submits_feed_iff text).mpr
  rintro before char after rfl isBreak
  have breaks : (before ++ char :: after).any isLineBreak = true :=
    List.any_eq_true.mpr ⟨char, by simp, isBreak⟩
  rw [noBreak] at breaks
  cases breaks

/-! ## Wrapped text -/

theorem submits_feed_begin :
    (receiver.feed bracketedPasteBegin).submits = receiver.submits :=
  submits_feed_of_no_break rfl

theorem submits_feed_end : (receiver.feed bracketedPasteEnd).submits = receiver.submits :=
  submits_feed_of_no_break rfl

theorem pasting_feed_begin : (receiver.feed bracketedPasteBegin).pasting = true := by
  rw [pasting, listener_feed]
  exact inside_run_opens

theorem pasting_feed_end : (receiver.feed bracketedPasteEnd).pasting = false := by
  rw [pasting, listener_feed]
  exact inside_run_closes

/-- No line break comes behind a closing marker without an opening one between. -/
def StaysPasted (text : List Char) : Prop :=
  ∀ before between char after,
    text = before ++ bracketedPasteEnd ++ between ++ char :: after → isLineBreak char = true →
      bracketedPasteBegin <:+: between

theorem staysPasted_iff (text : List Char) : StaysPasted text ↔
    ∀ before char after, text = before ++ char :: after → isLineBreak char = true →
      ¬ LeftClosed pasteMarks before := by
  constructor
  · rintro stays before char after rfl isBreak ⟨start, between, rfl, notAgain⟩
    exact notAgain (stays start between char after rfl isBreak)
  · rintro open' before between char after rfl isBreak
    by_contra notAgain
    exact open' _ char after rfl isBreak ⟨before, between, rfl, notAgain⟩

/-- Within a paste a text submits nothing exactly where its line breaks stay pasted. -/
theorem submits_feed_pasted_iff (noneBegun : NoMarkBegun pasteMarks receiver.listener.heard)
    (isPasting : receiver.pasting = true) (text : List Char) :
    (receiver.feed text).submits = receiver.submits ↔ StaysPasted text := by
  rw [submits_feed_iff, staysPasted_iff]
  apply forall_congr'
  intro before
  have closed := inside_run_eq_false_iff noneBegun isPasting before
  rw [← closed, ← listener_feed, Bool.not_eq_false]
  rfl

end Receiver

/-! ## Blocks -/

theorem isBracketedPasteBlock_iff {data : List Char} : isBracketedPasteBlock data = true ↔
    ∃ body, data = bracketedPasteBegin ++ body ++ bracketedPasteEnd := by
  rw [isBracketedPasteBlock, Bool.and_eq_true, List.isPrefixOf_iff_prefix,
    List.isSuffixOf_iff_suffix]
  constructor
  · rintro ⟨⟨rest, rfl⟩, ends⟩
    have isEnd : pasteMarks.closes <:+ [] ++ pasteMarks.opens ++ rest := ends
    rcases pasteMarks.isMark_closes.suffix_of_suffix pasteMarks.isMark_opens isEnd with
      ⟨body, rfl⟩ | ⟨_, same⟩
    · exact ⟨body, (List.append_assoc _ _ _).symm⟩
    · exact absurd same.symm pasteMarks.opens_ne_closes
  · rintro ⟨body, rfl⟩
    exact ⟨⟨body ++ bracketedPasteEnd, (List.append_assoc _ _ _).symm⟩, List.suffix_append _ _⟩

theorem isBracketedPasteBlock_wrap (data : List Char) :
    isBracketedPasteBlock (wrapAsBracketedPaste data) = true := by
  rw [wrapAsBracketedPaste]
  split
  · next isBlock => exact isBlock
  · exact isBracketedPasteBlock_iff.mpr ⟨data, rfl⟩

theorem wrap_wrap (data : List Char) :
    wrapAsBracketedPaste (wrapAsBracketedPaste data) = wrapAsBracketedPaste data :=
  if_pos (isBracketedPasteBlock_wrap data)

/-! ## What is submitted -/

/-- What a payload is wrapped around: itself, or its inside if it is a block. -/
theorem exists_body (data : List Char) : ∃ body,
    wrapAsBracketedPaste data = bracketedPasteBegin ++ body ++ bracketedPasteEnd ∧
      (data = body ∨ data = bracketedPasteBegin ++ body ++ bracketedPasteEnd) := by
  by_cases isBlock : isBracketedPasteBlock data = true
  · obtain ⟨body, isData⟩ := isBracketedPasteBlock_iff.mp isBlock
    exact ⟨body, (if_pos isBlock).trans isData, Or.inr isData⟩
  · exact ⟨data, if_neg isBlock, Or.inl rfl⟩

/-- The body is heard in a paste, whatever was heard before. -/
theorem submits_feed_block_iff (receiver : Receiver) (body : List Char) :
    (receiver.feed (bracketedPasteBegin ++ body ++ bracketedPasteEnd)).submits =
        receiver.submits ↔ Receiver.StaysPasted body := by
  have noneBegun : NoMarkBegun pasteMarks (receiver.feed bracketedPasteBegin).listener.heard := by
    rw [Receiver.listener_feed, heard_run]
    exact noMarkBegun_append pasteMarks.isMark_opens _
  rw [Receiver.feed_append, Receiver.submits_feed_end, Receiver.feed_append,
    ← Receiver.submits_feed_pasted_iff noneBegun Receiver.pasting_feed_begin,
    Receiver.submits_feed_begin]

/-- Markers around a text leave its line breaks pasted or not. -/
theorem staysPasted_block_iff (body : List Char) :
    Receiver.StaysPasted (bracketedPasteBegin ++ body ++ bracketedPasteEnd) ↔
      Receiver.StaysPasted body := by
  have noneBegun : NoMarkBegun pasteMarks (Receiver.mk ⟨[], true⟩ 0).listener.heard :=
    noMarkBegun_nil
  rw [← Receiver.submits_feed_pasted_iff noneBegun rfl, submits_feed_block_iff]

theorem submits_feed_wrap_iff (receiver : Receiver) (data : List Char) :
    (receiver.feed (wrapAsBracketedPaste data)).submits = receiver.submits ↔
      Receiver.StaysPasted data := by
  obtain ⟨body, isWrapped, isData⟩ := exists_body data
  rw [isWrapped, submits_feed_block_iff]
  rcases isData with rfl | rfl
  · exact Iff.rfl
  · exact (staysPasted_block_iff body).symm

theorem pasting_feed_wrap (receiver : Receiver) (data : List Char) :
    (receiver.feed (wrapAsBracketedPaste data)).pasting = false := by
  obtain ⟨body, isWrapped, _⟩ := exists_body data
  rw [isWrapped, Receiver.feed_append]
  exact Receiver.pasting_feed_end

/-- A wrapped payload presses no Enter, leaves the receiver outside a paste and is not
wrapped again, exactly where no line break of the payload comes behind a closing marker
of its own without an opening one between. -/
theorem wrapped_presses_no_enter_iff (payload : List Char) :
    ((∀ receiver : Receiver, receiver.pasting = false →
        (receiver.feed (wrapAsBracketedPaste payload)).submits = receiver.submits ∧
          (receiver.feed (wrapAsBracketedPaste payload)).pasting = false) ∧
      wrapAsBracketedPaste (wrapAsBracketedPaste payload) = wrapAsBracketedPaste payload) ↔
    Receiver.StaysPasted payload := by
  constructor
  · rintro ⟨quiet, _⟩
    exact (submits_feed_wrap_iff ⟨⟨[], false⟩, 0⟩ payload).mp (quiet _ rfl).1
  · intro stays
    refine ⟨fun receiver _ => ?_, wrap_wrap payload⟩
    exact ⟨(submits_feed_wrap_iff receiver payload).mpr stays, pasting_feed_wrap receiver payload⟩

/-- `a`, the closing marker, a line break, `b`. -/
theorem wrapped_presses_enter :
    ¬ ∀ (payload : List Char) (receiver : Receiver), receiver.pasting = false →
      (receiver.feed (wrapAsBracketedPaste payload)).submits = receiver.submits := by
  intro quiet
  have submitted := quiet ('a' :: bracketedPasteEnd ++ ['\r', 'b']) ⟨⟨[], false⟩, 0⟩ rfl
  exact absurd submitted (by decide)

end Yggterm.InputLine
