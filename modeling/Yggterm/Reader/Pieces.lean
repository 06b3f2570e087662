import Yggterm.Library.Ascii
import Yggterm.Reader.ReadBoundaries

/-!
# The passes over whole sequences

A text of plain characters and complete sequences goes through the two passes of the filter piece
by piece.  The second pass takes a control sequence to end at a letter, so behind another final
character it is still inside.
-/

namespace Yggterm.Reader

open Search TerminalProtocolFilterResult

/-- A byte that ends a control sequence: 0x40 to 0x7e. -/
def isFinal (char : Char) : Bool := '@' ≤ char && char ≤ '~'

/-- A plain character or a complete sequence, in which no other one begins. -/
inductive Piece where
  | plain (char : Char) (notEsc : char ≠ esc)
  | csi (body : List Char) (final : Char)
      (inside : ∀ char ∈ body, char ≠ esc ∧ isFinal char = false) (ends : isFinal final = true)
  | osc (content terminator : List Char) (inside : ∀ char ∈ content, char ≠ esc ∧ char ≠ bel)
      (ends : terminator = [bel] ∨ terminator = stringTerminator)

namespace Piece

def text : Piece → List Char
  | plain char _ => [char]
  | csi body final _ _ => esc :: '[' :: (body ++ [final])
  | osc content terminator _ _ => esc :: ']' :: (content ++ terminator)

/-- The colours that are asked for. -/
def colorQueries : Piece → Option (List TerminalProtocolColorQuery)
  | osc content _ _ _ => parseOscColorQueryContent content
  | _ => none

def isCsiQuery (piece : Piece) : Bool := csiQueries.contains piece.text

def isQuery (piece : Piece) : Bool := piece.colorQueries.isSome || piece.isCsiQuery

theorem isCsiQuery_iff {piece : Piece} : piece.isCsiQuery = true ↔ piece.text ∈ csiQueries :=
  List.contains_iff_mem

theorem isCsiQuery_eq_false_iff {piece : Piece} :
    piece.isCsiQuery = false ↔ piece.text ∉ csiQueries := by
  rw [← Bool.not_eq_true, isCsiQuery_iff]

def hasLetter (piece : Piece) : Bool := piece.text.any Char.isAlpha

/-- A control sequence whose final character is no letter. -/
def leavesOpen : Piece → Bool
  | csi _ final _ _ => !final.isAlpha
  | _ => false

end Piece

def textOf (pieces : List Piece) : List Char := pieces.flatMap Piece.text

@[simp]
theorem textOf_nil : textOf [] = [] := rfl

@[simp]
theorem textOf_cons (piece : Piece) (pieces : List Piece) :
    textOf (piece :: pieces) = piece.text ++ textOf pieces := rfl

/-! ## Letters -/

theorem isFinal_of_isAlpha {char : Char} (letter : char.isAlpha = true) : isFinal char = true := by
  have alphanum : char.isAlphanum = true := by
    delta Char.isAlphanum
    simp [letter]
  have small := Ascii.toNat_lt_of_isAlphanum alphanum
  revert letter
  exact Ascii.of_forall_ofNat (fun char => char.isAlpha = true → isFinal char = true)
    (by decide) small

theorem upToLetter_eq_none_iff {text : List Char} :
    upToLetter text = none ↔ text.any Char.isAlpha = false := by
  induction text with
  | nil => simp [upToLetter]
  | cons char rest inductionHypothesis =>
      rw [upToLetter]
      split
      · next letter => simp [letter]
      · next notLetter => simp [notLetter, inductionHypothesis]

theorem upToLetter_ne_nil {text front back : List Char}
    (found : upToLetter text = some (front, back)) : front ≠ [] := by
  rintro rfl
  cases text with
  | nil => cases found
  | cons char rest =>
      rw [upToLetter] at found
      split at found
      · cases found
      · obtain ⟨_, _, same⟩ := Option.map_eq_some_iff.mp found
        cases same

theorem upToLetter_of_body {body : List Char} (noLetter : body.any Char.isAlpha = false)
    {final : Char} (letter : final.isAlpha = true) :
    upToLetter (body ++ [final]) = some (body ++ [final], []) := by
  rw [upToLetter_append_of_none (upToLetter_eq_none_iff.mpr noLetter), upToLetter, if_pos letter]
  rfl

theorem noLetter_of_body {body : List Char}
    (inside : ∀ char ∈ body, char ≠ esc ∧ isFinal char = false) :
    body.any Char.isAlpha = false := by
  rw [List.any_eq_false]
  intro char member letter
  have final := isFinal_of_isAlpha letter
  rw [(inside char member).2] at final
  cases final

theorem noLetter_of_terminator {terminator : List Char}
    (ends : terminator = [bel] ∨ terminator = stringTerminator) :
    terminator.any Char.isAlpha = false := by
  rcases ends with rfl | rfl <;> decide

/-! ## The first pass -/

section Osc

variable {profile : TerminalProtocolProfile}

theorem processOsc_plain {text : List Char} (noEsc : esc ∉ text) (rest : List Char) :
    processOsc profile (text ++ rest) = (processOsc profile rest).after (visible text) := by
  induction text with
  | nil => rw [List.nil_append, Filtered.after_visible_nil]
  | cons char text inductionHypothesis =>
      rw [List.mem_cons, not_or] at noEsc
      have notHere : ¬ [esc, ']'] <+: char :: (text ++ rest) := by
        rw [List.cons_prefix_cons]
        exact fun here => noEsc.1 here.1
      rw [List.cons_append, processOsc_of_not_isPrefix notHere, inductionHypothesis noEsc.2,
        Filtered.after_after]
      rfl

/-- A sequence that does not begin with `ESC ]` passes. -/
theorem processOsc_escaped {char : Char} (different : char ≠ ']') {text : List Char}
    (noEsc : esc ∉ char :: text) (rest : List Char) :
    processOsc profile (esc :: char :: text ++ rest) =
      (processOsc profile rest).after (visible (esc :: char :: text)) := by
  have notHere : ¬ [esc, ']'] <+: esc :: (char :: text ++ rest) := by
    rw [List.cons_append, List.cons_prefix_cons, List.cons_prefix_cons]
    exact fun here => different here.2.1.symm
  rw [List.cons_append, processOsc_of_not_isPrefix notHere, processOsc_plain noEsc,
    Filtered.after_after]
  rfl

theorem processOsc_terminator {terminator : List Char}
    (ends : terminator = [bel] ∨ terminator = stringTerminator) (rest : List Char) :
    processOsc profile (terminator ++ rest) =
      (processOsc profile rest).after (visible terminator) := by
  rcases ends with rfl | rfl
  · exact processOsc_plain (by decide) rest
  · exact processOsc_escaped (by decide) (by decide) rest

theorem closing_of_content {content terminator : List Char}
    (inside : ∀ char ∈ content, char ≠ esc ∧ char ≠ bel)
    (ends : terminator = [bel] ∨ terminator = stringTerminator) (rest : List Char) :
    closing (content ++ (terminator ++ rest)) = some { content, terminator, rest } := by
  induction content with
  | nil =>
      rcases ends with rfl | rfl
      · rw [List.nil_append, List.singleton_append, closing, if_pos rfl]
      · rfl
  | cons char content inductionHypothesis =>
      obtain ⟨notHere, later⟩ := List.forall_mem_cons.mp inside
      rw [List.cons_append, closing, if_neg notHere.2, if_neg fun here => notHere.1 here.1,
        inductionHypothesis later]
      rfl

variable (profile) in
/-- What the first pass makes of a piece. -/
def Piece.passOsc (piece : Piece) : TerminalProtocolFilterResult :=
  match piece.colorQueries with
  | some queries => answerQueries profile queries
  | none => visible piece.text

theorem esc_not_mem_of_body {body : List Char}
    (inside : ∀ char ∈ body, char ≠ esc ∧ isFinal char = false) {final : Char}
    (ends : isFinal final = true) : esc ∉ '[' :: (body ++ [final]) := by
  intro member
  rcases List.mem_cons.mp member with isBracket | member
  · exact absurd isBracket (by decide)
  rcases List.mem_append.mp member with inBody | isFinal
  · exact (inside esc inBody).1 rfl
  · rw [← List.mem_singleton.mp isFinal] at ends
    exact absurd ends (by decide)

theorem processOsc_piece (piece : Piece) (rest : List Char) :
    processOsc profile (piece.text ++ rest) =
      (processOsc profile rest).after (piece.passOsc profile) := by
  cases piece with
  | plain char notEsc => exact processOsc_plain (by simpa [Piece.text] using notEsc.symm) rest
  | csi body final inside ends =>
      exact processOsc_escaped (by decide) (esc_not_mem_of_body inside ends) rest
  | osc content terminator inside ends =>
      have isClosed := closing_of_content inside ends rest
      rw [Piece.text, Piece.passOsc, Piece.colorQueries]
      simp only [List.cons_append, List.append_assoc]
      cases parsed : parseOscColorQueryContent content with
      | some queries =>
          have needed := oscSequenceMightNeedFiltering_append
            (oscSequenceMightNeedFiltering_of_query parsed) (terminator ++ rest)
          exact processOsc_query needed isClosed parsed
      | none =>
          cases needed : oscSequenceMightNeedFiltering (content ++ (terminator ++ rest)) with
          | true => exact processOsc_other needed isClosed parsed
          | false =>
              have noEsc : esc ∉ ']' :: content := by
                intro member
                rcases List.mem_cons.mp member with isBracket | inContent
                · exact absurd isBracket (by decide)
                · exact (inside esc inContent).1 rfl
              rw [processOsc_skip (by simp [introduces, needed]), ← List.cons_append,
                processOsc_plain noEsc, processOsc_terminator ends, Filtered.after_after,
                Filtered.after_after]
              rfl

variable (profile) in
/-- The answers to the colours that a piece asks for. -/
def Piece.colorAnswers (piece : Piece) : List (List Char) :=
  (piece.colorQueries.getD []).filterMap profile.oscColorResponse

theorem answerQueries_responses (queries : List TerminalProtocolColorQuery) :
    (answerQueries profile queries).responses = queries.filterMap profile.oscColorResponse := by
  induction queries with
  | nil => rfl
  | cons query queries inductionHypothesis =>
      rw [answerQueries]
      split
      · next response responds =>
          rw [append_responses, inductionHypothesis, List.filterMap_cons_some responds]
          rfl
      · next silent => rw [inductionHypothesis, List.filterMap_cons_none silent]

variable (profile) in
theorem processOsc_textOf (pieces : List Piece) :
    (processOsc profile (textOf pieces)).pending = [] ∧
      (processOsc profile (textOf pieces)).result.data =
        textOf (pieces.filter fun piece => piece.colorQueries.isNone) ∧
      (processOsc profile (textOf pieces)).result.responses =
        pieces.flatMap (Piece.colorAnswers profile) := by
  induction pieces with
  | nil => simp [processOsc_nil, visible]
  | cons piece pieces inductionHypothesis =>
      obtain ⟨pending, data, responses⟩ := inductionHypothesis
      rw [textOf_cons, processOsc_piece, Filtered.after_pending, Filtered.after_result, append_data,
        append_responses, data, responses, List.flatMap_cons]
      refine ⟨pending, ?_, ?_⟩
      · cases queries : piece.colorQueries with
        | some asked =>
            rw [List.filter_cons_of_neg (by simp [queries]), Piece.passOsc, queries]
            simp [answerQueries_data]
        | none =>
            rw [List.filter_cons_of_pos (by simp [queries]), Piece.passOsc, queries]
            rfl
      · rw [Piece.passOsc, Piece.colorAnswers]
        cases piece.colorQueries with
        | some asked => simp [answerQueries_responses]
        | none => rfl

end Osc

/-! ## The second pass -/

section Csi

variable {cursorPosition : Option (UInt16 × UInt16)}

theorem processCsi_plain {text : List Char} (noEsc : esc ∉ text) (rest : List Char) :
    processCsi cursorPosition (text ++ rest) = visible text ++ processCsi cursorPosition rest := by
  induction text with
  | nil => rw [List.nil_append, visible_nil_append]
  | cons char text inductionHypothesis =>
      rw [List.mem_cons, not_or] at noEsc
      rw [List.cons_append, processCsi_skip fun here => noEsc.1 here.1.symm,
        inductionHypothesis noEsc.2, ← append_assoc]
      rfl

theorem processCsi_terminator {terminator : List Char}
    (ends : terminator = [bel] ∨ terminator = stringTerminator) (rest : List Char) :
    processCsi cursorPosition (terminator ++ rest) =
      visible terminator ++ processCsi cursorPosition rest := by
  rcases ends with rfl | rfl
  · exact processCsi_plain (by decide) rest
  · have skips : ¬ (esc = esc ∧ ('\\' :: rest).head? = some '[') := by simp
    have noEsc : esc ∉ ['\\'] := by decide
    have plain : processCsi cursorPosition ('\\' :: rest) =
        visible ['\\'] ++ processCsi cursorPosition rest :=
      processCsi_plain noEsc rest
    change processCsi cursorPosition (esc :: '\\' :: rest) = _
    rw [processCsi_skip skips, plain, ← append_assoc]
    rfl

theorem final_notMem_of_csiQuery {body : List Char} {letter : Char}
    (isQuery : esc :: '[' :: (body ++ [letter]) ∈ csiQueries) :
    ∀ char ∈ body, isFinal char = false := by
  have inQueries :
      ∀ query ∈ csiQueries, ∀ char ∈ (query.drop 2).dropLast, isFinal char = false := by
    simp [csiQueries, isFinal]
  simpa using inQueries _ isQuery

/-- An end of a piece behind a letter passes. -/
theorem Piece.exists_letter {piece : Piece} (letter : piece.hasLetter = true) :
    ∃ front back, upToLetter piece.text = some (front, back) ∧ ∀ rest,
      processCsi cursorPosition (back ++ rest) =
          visible back ++ processCsi cursorPosition rest := by
  cases piece with
  | plain char notEsc =>
      refine ⟨[char], [], ?_, fun rest => (visible_nil_append _).symm⟩
      rw [Piece.text, upToLetter, if_pos (by simpa [Piece.hasLetter, Piece.text] using letter)]
  | csi body final inside ends =>
      have noLetter := noLetter_of_body inside
      have isLetter : final.isAlpha = true := by
        simpa [Piece.hasLetter, Piece.text, noLetter, esc] using letter
      refine ⟨esc :: '[' :: (body ++ [final]), [], ?_, fun rest => (visible_nil_append _).symm⟩
      rw [Piece.text, upToLetter, if_neg (by decide), upToLetter, if_neg (by decide),
        upToLetter_of_body noLetter isLetter]
      rfl
  | osc content terminator inside ends =>
      have noLetter := noLetter_of_terminator ends
      have inContent : upToLetter content ≠ none := by
        rw [Ne, upToLetter_eq_none_iff]
        intro without
        simp [Piece.hasLetter, Piece.text, noLetter, without, esc] at letter
      obtain ⟨⟨front, back⟩, found⟩ := Option.ne_none_iff_exists'.mp inContent
      refine ⟨esc :: ']' :: front, back ++ terminator, ?_, fun rest => ?_⟩
      · rw [Piece.text, upToLetter, if_neg (by decide), upToLetter, if_neg (by decide),
          upToLetter_append_of_some found]
        rfl
      · have noEsc : esc ∉ back := by
          intro member
          refine (inside esc ?_).1 rfl
          rw [upToLetter_eq found]
          exact List.mem_append_right _ member
        rw [List.append_assoc, processCsi_plain noEsc, processCsi_terminator ends, ← append_assoc]
        rfl

/-- A piece that ends where the pass takes it to end. -/
theorem processCsi_piece {piece : Piece} (closed : piece.leavesOpen = false) (rest : List Char) :
    processCsi cursorPosition (piece.text ++ rest) =
      processCsiSequence cursorPosition piece.text ++ processCsi cursorPosition rest := by
  cases piece with
  | plain char notEsc =>
      have silent : csiResponse cursorPosition [char] = none :=
        csiResponse_eq_none_iff.mpr (by simp [csiQueries])
      rw [Piece.text, processCsiSequence, silent]
      exact processCsi_plain (by simpa using notEsc.symm) rest
  | csi body final inside ends =>
      have letter : final.isAlpha = true := by simpa [Piece.leavesOpen] using closed
      have found := upToLetter_append_of_some
        (upToLetter_of_body (noLetter_of_body inside) letter) rest
      exact processCsi_sequence found
  | osc content terminator inside ends =>
      have silent : csiResponse cursorPosition (esc :: ']' :: (content ++ terminator)) = none :=
        csiResponse_eq_none_iff.mpr (by simp [csiQueries])
      have noEsc : esc ∉ ']' :: content := by
        intro member
        rcases List.mem_cons.mp member with isBracket | inContent
        · exact absurd isBracket (by decide)
        · exact (inside esc inContent).1 rfl
      have skips : ¬ (esc = esc ∧
          (']' :: content ++ (terminator ++ rest)).head? = some '[') := by simp
      rw [Piece.text, processCsiSequence, silent]
      rw [← List.cons_append, List.cons_append, List.append_assoc, processCsi_skip skips,
        processCsi_plain noEsc, processCsi_terminator ends, ← append_assoc, ← append_assoc]
      rfl

/-- Whether the pass is inside of a control sequence behind a piece. -/
def Piece.opensAfter (inside : Bool) (piece : Piece) : Bool :=
  !piece.hasLetter && (inside || piece.leavesOpen)

variable (cursorPosition) in
/-- The second pass, from inside of a control sequence or not. -/
def passPieces : Bool → List Piece → TerminalProtocolFilterResult
  | _, [] => visible []
  | inside, piece :: pieces =>
      (if inside then visible piece.text else processCsiSequence cursorPosition piece.text) ++
        passPieces (piece.opensAfter inside) pieces

theorem Piece.hasLetter_of_leavesOpen {piece : Piece} (opened : piece.leavesOpen = true) :
    piece.hasLetter = false ∧ ∃ body, piece.text = esc :: '[' :: body ∧
      (∃ char ∈ body, isFinal char = true) := by
  cases piece with
  | plain char notEsc => cases opened
  | osc content terminator inside ends => cases opened
  | csi body final inside ends =>
      have notLetter : final.isAlpha = false := by simpa [Piece.leavesOpen] using opened
      refine ⟨?_, body ++ [final], rfl, final, by simp, ends⟩
      simp [Piece.hasLetter, Piece.text, noLetter_of_body inside, notLetter, esc]

/-- Both states of the pass: outside, and inside of a sequence that is no query. -/
theorem processCsi_textOf (pieces : List Piece) :
    processCsi cursorPosition (textOf pieces) = passPieces cursorPosition false pieces ∧
      ∀ opened, upToLetter opened = none → (∃ char ∈ opened, isFinal char = true) →
        processCsi cursorPosition (esc :: '[' :: (opened ++ textOf pieces)) =
          visible (esc :: '[' :: opened) ++ passPieces cursorPosition true pieces := by
  induction pieces with
  | nil =>
      refine ⟨processCsi_nil, fun opened noLetter _ => ?_⟩
      rw [textOf_nil, List.append_nil, processCsi_open noLetter, passPieces, append_visible_nil]
  | cons piece pieces inductionHypothesis =>
      obtain ⟨outside, inside⟩ := inductionHypothesis
      constructor
      · rw [textOf_cons, passPieces, if_neg (by decide), Piece.opensAfter, Bool.false_or]
        cases opens : piece.leavesOpen with
        | false => rw [processCsi_piece opens, Bool.and_false, outside]
        | true =>
            obtain ⟨noLetter, body, isText, final⟩ := Piece.hasLetter_of_leavesOpen opens
            have bodyLetters : upToLetter body = none := by
              rw [upToLetter_eq_none_iff]
              simpa [Piece.hasLetter, isText, esc] using noLetter
            have silent : csiResponse cursorPosition piece.text = none := by
              rw [csiResponse_eq_none_iff]
              intro isQuery
              have asks : ∀ query ∈ csiQueries, query.any Char.isAlpha = true := by decide
              rw [Piece.hasLetter, asks _ isQuery] at noLetter
              cases noLetter
            rw [noLetter, processCsiSequence, silent, isText]
            exact inside body bodyLetters final
      · intro opened noLetter final
        rw [textOf_cons, passPieces, if_pos rfl, Piece.opensAfter, Bool.true_or, Bool.and_true]
        cases letter : piece.hasLetter with
        | false =>
            have none : upToLetter (opened ++ piece.text) = none := by
              rw [upToLetter_append_of_none noLetter, upToLetter_eq_none_iff.mpr letter]
              rfl
            obtain ⟨char, member, isFinal⟩ := final
            have later := inside (opened ++ piece.text) none
              ⟨char, List.mem_append_left _ member, isFinal⟩
            rw [List.append_assoc] at later
            rw [later, Bool.not_false, ← append_assoc]
            rfl
        | true =>
            obtain ⟨front, back, found, passes⟩ := piece.exists_letter letter
            have ends : upToLetter (opened ++ (piece.text ++ textOf pieces)) =
                some (opened ++ front, back ++ textOf pieces) := by
              rw [upToLetter_append_of_none noLetter, upToLetter_append_of_some found]
              rfl
            have silent : csiResponse cursorPosition (esc :: '[' :: (opened ++ front)) = none := by
              rw [csiResponse_eq_none_iff]
              intro isQuery
              obtain ⟨char, member, isFinal⟩ := final
              rw [← List.dropLast_append_getLast (upToLetter_ne_nil found), ← List.append_assoc]
                at isQuery
              have early := final_notMem_of_csiQuery isQuery char (List.mem_append_left _ member)
              rw [isFinal] at early
              cases early
            rw [processCsi_sequence ends, processCsiSequence, silent, passes, outside,
              Bool.not_true, ← append_assoc, ← append_assoc, upToLetter_eq found]
            simp

end Csi

end Yggterm.Reader
