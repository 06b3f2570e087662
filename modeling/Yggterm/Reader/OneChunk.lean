import Yggterm.Library.Text
import Yggterm.Reader.Pieces

/-!
# A chunk of whole sequences

All colours are answered before anything else is, and a query behind a control sequence that ends
in no letter is taken for a part of it.
-/

namespace Yggterm.Reader

open TerminalProtocolFilterResult

/-! ## Queries -/

section Queries

variable {profile : TerminalProtocolProfile} {cursorPosition : Option (UInt16 × UInt16)}

theorem isAlpha_of_isDigit {char : Char} (digit : char.isDigit = true) : char.isAlpha = false := by
  have alphanum : char.isAlphanum = true := by
    delta Char.isAlphanum
    simp [digit]
  revert digit
  exact Ascii.of_forall_ofNat (fun char => char.isDigit = true → char.isAlpha = false) (by decide)
    (Ascii.toNat_lt_of_isAlphanum alphanum)

theorem noLetter_of_parseU16 {text : List Char} {slot : Nat} (parses : parseU16 text = some slot) :
    text.any Char.isAlpha = false := by
  have digits : ∀ digits : List Char, digits.all Char.isDigit = true →
      digits.any Char.isAlpha = false := by
    intro digits all
    rw [List.any_eq_false]
    intro char member
    rw [isAlpha_of_isDigit (List.all_eq_true.mp all char member)]
    exact Bool.false_ne_true
  rw [parseU16] at parses
  by_cases isPlus : text.head? = some '+'
  · rw [if_pos isPlus] at parses
    obtain ⟨rest, rfl⟩ := List.head?_eq_some_iff.mp isPlus
    have isNumber := (Option.ite_none_right_eq_some.mp parses).1
    rw [List.any_cons, digits rest isNumber.2]
    decide
  · rw [if_neg isPlus] at parses
    exact digits text (Option.ite_none_right_eq_some.mp parses).1.2

theorem parsePaletteQueries_spec {parts : List (List Char)}
    {queries : List TerminalProtocolColorQuery}
    (parses : parsePaletteQueries parts = some queries) :
    (∀ part ∈ parts, part.any Char.isAlpha = false) ∧
      ∀ query ∈ queries, query.code = oscPaletteCode ∧ query.slot ≤ 255 := by
  fun_induction parsePaletteQueries parts generalizing queries with
  | case1 =>
      cases parses
      exact ⟨by simp, by simp⟩
  | case2 => cases parses
  | case3 => cases parses
  | case4 => cases parses
  | case5 => cases parses
  | case6 slotValue request parts isMark slot isSlot inRange inductionHypothesis =>
      obtain ⟨later, laterParses, rfl⟩ := Option.map_eq_some_iff.mp parses
      obtain ⟨letters, slots⟩ := inductionHypothesis laterParses
      have mark : request = ['?'] := Decidable.not_not.mp isMark
      refine ⟨?_, List.forall_mem_cons.mpr ⟨⟨rfl, Nat.le_of_not_lt inRange⟩, slots⟩⟩
      refine List.forall_mem_cons.mpr ⟨noLetter_of_parseU16 isSlot,
        List.forall_mem_cons.mpr ⟨?_, letters⟩⟩
      rw [mark]
      decide

/-- A query of colours asks for at least one, for those that there are, and without a letter. -/
theorem parseOscColorQueryContent_spec {content : List Char}
    {queries : List TerminalProtocolColorQuery}
    (parses : parseOscColorQueryContent content = some queries) :
    content.any Char.isAlpha = false ∧ queries ≠ [] ∧ ∀ query ∈ queries,
      (query.code = oscPaletteCode ∧ query.slot ≤ 255) ∨ query.code = oscColorForegroundCode ∨
        query.code = oscColorBackgroundCode := by
  rw [parseOscColorQueryContent] at parses
  split at parses
  · next isForeground =>
      cases parses
      rw [isForeground]
      exact ⟨by decide, by simp, by simp⟩
  split at parses
  · next isBackground =>
      cases parses
      rw [isBackground]
      exact ⟨by decide, by simp, by simp⟩
  split at parses
  · next isPalette =>
      obtain ⟨rest, rfl⟩ := isPalette
      split at parses
      · cases parses
      · next found nonempty =>
          obtain ⟨letters, slots⟩ := parsePaletteQueries_spec parses
          refine ⟨?_, ?_, fun query member => .inl (slots query member)⟩
          · have parts : ';' :: [';'].intercalate (rest.splitOn ';') = _ :=
   Text.cons_intercalate (List.splitOn_ne_nil ';' rest)
            rw [List.intercalate_splitOn] at parts
            change ('4' :: ';' :: rest).any Char.isAlpha = false
            rw [List.any_cons, parts, List.any_flatMap]
            apply Bool.or_eq_false_iff.mpr ⟨by decide, ?_⟩
            rw [List.any_eq_false]
            intro part member
            rw [List.any_cons, letters part member]
            decide
          · rintro rfl
            exact nonempty parses
  · cases parses

theorem exists_oscColorResponse {query : TerminalProtocolColorQuery}
    (known : (query.code = oscPaletteCode ∧ query.slot ≤ 255) ∨
      query.code = oscColorForegroundCode ∨ query.code = oscColorBackgroundCode) :
    ∃ response, profile.oscColorResponse query = some response := by
  have colored : ∃ color, profile.color query = some color := by
    rw [TerminalProtocolProfile.color]
    rcases known with ⟨isPalette, inRange⟩ | isForeground | isBackground
    · rw [isPalette, if_neg (by decide), if_neg (by decide), if_pos rfl]
      split
      · exact ⟨_, rfl⟩
      · next outside =>
          have large : 16 ≤ query.slot := by
            simpa using outside
          rw [xterm256Color]
          split
          · exact ⟨_, rfl⟩
          · rw [if_pos ⟨by omega, inRange⟩, if_pos (by omega)]
            exact ⟨_, rfl⟩
    · rw [if_pos isForeground]
      exact ⟨_, rfl⟩
    · rw [isBackground, if_neg (by decide), if_pos rfl]
      exact ⟨_, rfl⟩
  obtain ⟨color, isColor⟩ := colored
  rw [TerminalProtocolProfile.oscColorResponse, isColor]
  exact ⟨_, rfl⟩

variable (cursorPosition) in
/-- The answer to the status or attributes that a piece asks for. -/
def Piece.csiAnswers (piece : Piece) : List (List Char) :=
  (csiResponse cursorPosition piece.text).toList

theorem Piece.csiAnswers_eq_nil_iff {piece : Piece} :
    piece.csiAnswers cursorPosition = [] ↔ piece.isCsiQuery = false := by
  rw [Piece.csiAnswers, Option.toList_eq_nil_iff, csiResponse_eq_none_iff,
    Piece.isCsiQuery_eq_false_iff]

theorem Piece.colorAnswers_eq_nil_iff {piece : Piece} :
    piece.colorAnswers profile = [] ↔ piece.colorQueries = none := by
  rw [Piece.colorAnswers]
  cases asked : piece.colorQueries with
  | none => simp
  | some queries =>
      simp only [Option.getD_some, reduceCtorEq, iff_false]
      intro nothing
      cases piece with
      | plain char notEsc => cases asked
      | csi body final inside ends => cases asked
      | osc content terminator inside ends =>
          obtain ⟨_, nonempty, known⟩ := parseOscColorQueryContent_spec asked
          obtain ⟨query, others, rfl⟩ := List.exists_cons_of_ne_nil nonempty
          obtain ⟨response, responds⟩ :
              ∃ response, profile.oscColorResponse query = some response :=
            exists_oscColorResponse (known query List.mem_cons_self)
          rw [List.filterMap_cons_some responds] at nothing
          cases nothing

/-- A query of colours means nothing to the second pass. -/
theorem Piece.inert_of_colorQueries {piece : Piece} (asked : piece.colorQueries ≠ none) :
    piece.isCsiQuery = false ∧ piece.hasLetter = false ∧ piece.leavesOpen = false := by
  cases piece with
  | plain char notEsc => exact absurd rfl asked
  | csi body final inside ends => exact absurd rfl asked
  | osc content terminator inside ends =>
      obtain ⟨queries, parses⟩ := Option.ne_none_iff_exists'.mp asked
      obtain ⟨letters, _⟩ := parseOscColorQueryContent_spec parses
      have notQuery : (Piece.osc content terminator inside ends).isCsiQuery = false := by
        rw [Piece.isCsiQuery_eq_false_iff]
        simp [Piece.text, csiQueries]
      refine ⟨notQuery, ?_, rfl⟩
      simp [Piece.hasLetter, Piece.text, letters, noLetter_of_terminator ends, esc]

end Queries

/-! ## What the second pass takes for a part of another sequence -/

def swallows : Bool → List Piece → Bool
  | _, [] => false
  | inside, piece :: pieces =>
      (inside && piece.isCsiQuery) || swallows (piece.opensAfter inside) pieces

/-- A query with no letter before it. -/
def QueryBeforeLetter (pieces : List Piece) : Prop :=
  ∃ between query after, pieces = between ++ query :: after ∧
    (∀ piece ∈ between, piece.hasLetter = false) ∧ query.isCsiQuery = true

/-- A query behind a control sequence that ends in no letter, with no letter between them. -/
def Swallowed (pieces : List Piece) : Prop :=
  ∃ before opener later, pieces = before ++ opener :: later ∧ opener.leavesOpen = true ∧
    QueryBeforeLetter later

theorem queryBeforeLetter_cons {piece : Piece} {pieces : List Piece} :
    QueryBeforeLetter (piece :: pieces) ↔
      piece.isCsiQuery = true ∨ piece.hasLetter = false ∧ QueryBeforeLetter pieces := by
  constructor
  · rintro ⟨between, query, after, isPieces, silent, isQuery⟩
    cases between with
    | nil =>
        cases isPieces
        exact .inl isQuery
    | cons first between =>
        cases isPieces
        obtain ⟨here, later⟩ := List.forall_mem_cons.mp silent
        exact .inr ⟨here, between, query, after, rfl, later, isQuery⟩
  · rintro (isQuery | ⟨here, between, query, after, rfl, silent, isQuery⟩)
    · exact ⟨[], piece, pieces, rfl, by simp, isQuery⟩
    · exact ⟨piece :: between, query, after, rfl, List.forall_mem_cons.mpr ⟨here, silent⟩, isQuery⟩

theorem swallowed_cons {piece : Piece} {pieces : List Piece} :
    Swallowed (piece :: pieces) ↔
      piece.leavesOpen = true ∧ QueryBeforeLetter pieces ∨ Swallowed pieces := by
  constructor
  · rintro ⟨before, opener, later, isPieces, opens, asks⟩
    cases before with
    | nil =>
        cases isPieces
        exact .inl ⟨opens, asks⟩
    | cons first before =>
        cases isPieces
        exact .inr ⟨before, opener, later, rfl, opens, asks⟩
  · rintro (⟨opens, asks⟩ | ⟨before, opener, later, rfl, opens, asks⟩)
    · exact ⟨[], piece, pieces, rfl, opens, asks⟩
    · exact ⟨piece :: before, opener, later, rfl, opens, asks⟩

theorem not_queryBeforeLetter_nil : ¬ QueryBeforeLetter [] := by
  rintro ⟨between, query, after, isNil, _⟩
  simp at isNil

theorem not_swallowed_nil : ¬ Swallowed [] := by
  rintro ⟨before, opener, later, isNil, _⟩
  simp at isNil

theorem swallows_iff {inside : Bool} {pieces : List Piece} :
    swallows inside pieces = true ↔
        Swallowed pieces ∨ inside = true ∧ QueryBeforeLetter pieces := by
  induction pieces generalizing inside with
  | nil => simp [swallows, not_swallowed_nil, not_queryBeforeLetter_nil]
  | cons piece pieces inductionHypothesis =>
      have silent : piece.leavesOpen = true → piece.hasLetter = false := fun opens =>
        (Piece.hasLetter_of_leavesOpen opens).1
      rw [swallows, Bool.or_eq_true, inductionHypothesis, swallowed_cons, queryBeforeLetter_cons,
        Piece.opensAfter, Bool.and_eq_true, Bool.and_eq_true, Bool.or_eq_true, Bool.not_eq_true']
      tauto

/-! ## The filter over a chunk -/

section Chunk

variable {profile : TerminalProtocolProfile} {cursorPosition : Option (UInt16 × UInt16)}

theorem processCsiSequence_text (piece : Piece) :
    processCsiSequence cursorPosition piece.text =
      if piece.isCsiQuery then
        { data := [], responses := piece.csiAnswers cursorPosition, answeredQueries := [] }
      else visible piece.text := by
  rw [processCsiSequence, Piece.csiAnswers]
  cases responds : csiResponse cursorPosition piece.text with
  | none =>
      have notQuery : piece.isCsiQuery = false :=
        Piece.isCsiQuery_eq_false_iff.mpr (csiResponse_eq_none_iff.mp responds)
      rw [notQuery]
      rfl
  | some response =>
      have isQuery : piece.isCsiQuery = true := by
        rw [Piece.isCsiQuery_iff]
        by_contra notQuery
        rw [csiResponse_eq_none_iff.mpr notQuery] at responds
        cases responds
      rw [if_pos isQuery]
      rfl

variable (cursorPosition) in
/-- Where no query is swallowed, the second pass takes out all queries and answers them. -/
theorem passPieces_of_not_swallows {inside : Bool} {pieces : List Piece}
    (kept : swallows inside pieces = false) :
    (passPieces cursorPosition inside pieces).data =
        textOf (pieces.filter fun piece => !piece.isCsiQuery) ∧
      (passPieces cursorPosition inside pieces).responses =
        pieces.flatMap (Piece.csiAnswers cursorPosition) := by
  induction pieces generalizing inside with
  | nil => exact ⟨rfl, rfl⟩
  | cons piece pieces inductionHypothesis =>
      rw [swallows, Bool.or_eq_false_iff] at kept
      obtain ⟨data, responses⟩ := inductionHypothesis kept.2
      rw [passPieces, append_data, append_responses, data, responses, List.flatMap_cons,
        processCsiSequence_text]
      cases isQuery : piece.isCsiQuery with
      | true =>
          have outside : inside = false := by simpa [isQuery] using kept.1
          rw [List.filter_cons_of_neg (by simp [isQuery]), outside]
          exact ⟨rfl, rfl⟩
      | false =>
          rw [List.filter_cons_of_pos (by simp [isQuery]), Piece.csiAnswers_eq_nil_iff.mpr isQuery,
            if_neg Bool.false_ne_true, ite_self]
          exact ⟨rfl, rfl⟩

variable (cursorPosition) in
/-- A swallowed query is left in the visible text. -/
theorem length_passPieces (inside : Bool) (pieces : List Piece) :
    (textOf (pieces.filter fun piece => !piece.isCsiQuery)).length +
        (swallows inside pieces).toNat ≤ (passPieces cursorPosition inside pieces).data.length := by
  induction pieces generalizing inside with
  | nil => exact Nat.le_refl 0
  | cons piece pieces inductionHypothesis =>
      have later := inductionHypothesis (piece.opensAfter inside)
      rw [passPieces, append_data, List.length_append, swallows, processCsiSequence_text]
      cases isQuery : piece.isCsiQuery with
      | false =>
          rw [List.filter_cons_of_pos (by simp [isQuery]), if_neg Bool.false_ne_true, ite_self,
            Bool.and_false, Bool.false_or, textOf_cons, List.length_append]
          change _ ≤ piece.text.length + _
          omega
      | true =>
          rw [List.filter_cons_of_neg (by simp [isQuery])]
          cases inside with
          | false =>
              rw [Bool.false_and, Bool.false_or]
              exact Nat.le_trans later (Nat.le_add_left _ _)
          | true =>
              have positive : 0 < piece.text.length := by
                cases piece <;> simp [Piece.text]
              have atMost := Bool.toNat_le (swallows (piece.opensAfter true) pieces)
              change _ + 1 ≤ piece.text.length + _
              omega

/-- The queries of colours are not there for the second pass, and it makes no difference. -/
theorem swallows_filter (inside : Bool) (pieces : List Piece) :
    swallows inside (pieces.filter fun piece => piece.colorQueries.isNone) =
      swallows inside pieces := by
  induction pieces generalizing inside with
  | nil => rfl
  | cons piece pieces inductionHypothesis =>
      cases asked : piece.colorQueries with
      | none =>
          rw [List.filter_cons_of_pos (by simp [asked]), swallows, swallows, inductionHypothesis]
      | some queries =>
          have colors : piece.colorQueries ≠ none := by simp [asked]
          obtain ⟨notQuery, noLetter, closed⟩ := Piece.inert_of_colorQueries colors
          rw [List.filter_cons_of_neg (by simp [asked]), inductionHypothesis, swallows,
            Piece.opensAfter, notQuery, noLetter, closed]
          simp

theorem flatMap_csiAnswers_filter (pieces : List Piece) :
    (pieces.filter fun piece => piece.colorQueries.isNone).flatMap
        (Piece.csiAnswers cursorPosition) =
      pieces.flatMap (Piece.csiAnswers cursorPosition) := by
  induction pieces with
  | nil => rfl
  | cons piece pieces inductionHypothesis =>
      cases asked : piece.colorQueries with
      | none =>
          rw [List.filter_cons_of_pos (by simp [asked]), List.flatMap_cons, List.flatMap_cons,
            inductionHypothesis]
      | some queries =>
          have colors : piece.colorQueries ≠ none := by simp [asked]
          have notQuery := (Piece.inert_of_colorQueries colors).1
          rw [List.filter_cons_of_neg (by simp [asked]), List.flatMap_cons,
            Piece.csiAnswers_eq_nil_iff.mpr notQuery, inductionHypothesis]
          rfl

theorem filter_isQuery (pieces : List Piece) :
    pieces.filter (fun piece => !piece.isQuery) =
      (pieces.filter fun piece => piece.colorQueries.isNone).filter
        fun piece => !piece.isCsiQuery := by
  rw [List.filter_filter]
  congr 1
  funext piece
  rw [Piece.isQuery, Bool.not_or, Option.not_isSome, Bool.and_comm]

variable (profile cursorPosition) in
theorem processWithCursor_textOf (pieces : List Piece) :
    (processWithCursor profile cursorPosition [] (textOf pieces)).result.data =
        (passPieces cursorPosition false
          (pieces.filter fun piece => piece.colorQueries.isNone)).data ∧
      (processWithCursor profile cursorPosition [] (textOf pieces)).result.responses =
        pieces.flatMap (Piece.colorAnswers profile) ++ (passPieces cursorPosition false
          (pieces.filter fun piece => piece.colorQueries.isNone)).responses := by
  obtain ⟨_, data, responses⟩ := processOsc_textOf profile pieces
  rw [processWithCursor_eq, List.nil_append, Filtered.passCsi, data, responses,
    (processCsi_textOf _).1]
  exact ⟨rfl, rfl⟩

/-! ## The order of the answers -/

variable (profile cursorPosition) in
/-- The answers to a piece. -/
def Piece.answers (piece : Piece) : List (List Char) :=
  piece.colorAnswers profile ++ piece.csiAnswers cursorPosition

/-- No colour is asked for behind anything else. -/
def ColorsFirst (pieces : List Piece) : Prop :=
  pieces.Pairwise fun first second => first.isCsiQuery = true → second.colorQueries = none

theorem isPrefix_of_mem_colorAnswers {piece : Piece} {answer : List Char}
    (member : answer ∈ piece.colorAnswers profile) : [esc, ']'] <+: answer := by
  obtain ⟨query, _, responds⟩ := List.mem_filterMap.mp member
  obtain ⟨color, _, rfl⟩ := Option.map_eq_some_iff.mp responds
  simp only [List.append_assoc]
  exact List.prefix_append _ _

theorem not_isPrefix_of_mem_csiAnswers {piece : Piece} {answer : List Char}
    (member : answer ∈ piece.csiAnswers cursorPosition) : ¬ [esc, ']'] <+: answer := by
  have responds : csiResponse cursorPosition piece.text = some answer := by
    simpa [Piece.csiAnswers] using member
  have bracket : ∃ rest, answer = esc :: '[' :: rest := by
    unfold csiResponse at responds
    split_ifs at responds
    all_goals
      cases responds
      exact ⟨_, rfl⟩
  obtain ⟨rest, rfl⟩ := bracket
  simp

/-- All answers about colours come first in the order of the queries exactly when the queries do. -/
theorem answers_in_order_iff (pieces : List Piece) :
    pieces.flatMap (Piece.answers profile cursorPosition) =
        pieces.flatMap (Piece.colorAnswers profile) ++
          pieces.flatMap (Piece.csiAnswers cursorPosition) ↔
      ColorsFirst pieces := by
  constructor
  · intro inOrder
    have sorted : (pieces.flatMap (Piece.answers profile cursorPosition)).Pairwise
        fun first second => [esc, ']'] <+: second → [esc, ']'] <+: first := by
      rw [inOrder, List.pairwise_append]
      refine ⟨?_, ?_, ?_⟩
      · apply List.pairwise_of_forall_mem_list
        intro first member second _ _
        obtain ⟨piece, _, isAnswer⟩ := List.mem_flatMap.mp member
        exact isPrefix_of_mem_colorAnswers isAnswer
      · apply List.pairwise_of_forall_mem_list
        intro first _ second member isColor
        obtain ⟨piece, _, isAnswer⟩ := List.mem_flatMap.mp member
        exact absurd isColor (not_isPrefix_of_mem_csiAnswers isAnswer)
      · intro first member second _ _
        obtain ⟨piece, _, isAnswer⟩ := List.mem_flatMap.mp member
        exact isPrefix_of_mem_colorAnswers isAnswer
    refine (List.pairwise_flatMap.mp sorted).2.imp ?_
    intro first second ordered isQuery
    by_contra asked
    have responds : first.csiAnswers cursorPosition ≠ [] := by
      rw [Ne, Piece.csiAnswers_eq_nil_iff, isQuery]
      exact nofun
    have colors : second.colorAnswers profile ≠ [] := by
      rwa [Ne, Piece.colorAnswers_eq_nil_iff]
    obtain ⟨response, inFirst⟩ := List.exists_mem_of_ne_nil _ responds
    obtain ⟨color, inSecond⟩ := List.exists_mem_of_ne_nil _ colors
    exact not_isPrefix_of_mem_csiAnswers inFirst (ordered response
      (List.mem_append_right _ inFirst) color (List.mem_append_left _ inSecond)
      (isPrefix_of_mem_colorAnswers inSecond))
  · intro colorsFirst
    induction pieces with
    | nil => rfl
    | cons piece pieces inductionHypothesis =>
        obtain ⟨here, later⟩ := List.pairwise_cons.mp colorsFirst
        rw [List.flatMap_cons, List.flatMap_cons, List.flatMap_cons, inductionHypothesis later,
          Piece.answers]
        cases isQuery : piece.isCsiQuery with
        | false => simp [Piece.csiAnswers_eq_nil_iff.mpr isQuery]
        | true =>
            have noColors : pieces.flatMap (Piece.colorAnswers profile) = [] := by
              rw [List.flatMap_eq_nil_iff]
              intro second member
              exact Piece.colorAnswers_eq_nil_iff.mpr (here second member isQuery)
            simp [noColors]

variable (profile cursorPosition) in
/-- What the filter should do with a chunk: each query has its answers, they come in the order of
the queries, and the rest of the text stays visible. -/
structure AnswersEach (pieces : List Piece) : Prop where
  responses : (processWithCursor profile cursorPosition [] (textOf pieces)).result.responses =
    pieces.flatMap (Piece.answers profile cursorPosition)
  answered : ∀ piece ∈ pieces, piece.isQuery = true → piece.answers profile cursorPosition ≠ []
  data : (processWithCursor profile cursorPosition [] (textOf pieces)).result.data =
    textOf (pieces.filter fun piece => !piece.isQuery)

/-- A chunk is answered as it should be exactly when colours are asked for first, and no other
query stands behind a control sequence that ends in no letter with no letter between them. -/
theorem answersEach_iff (profile : TerminalProtocolProfile)
    (cursorPosition : Option (UInt16 × UInt16)) (pieces : List Piece) :
    AnswersEach profile cursorPosition pieces ↔ ColorsFirst pieces ∧ ¬ Swallowed pieces := by
  obtain ⟨data, responses⟩ :=
    processWithCursor_textOf profile cursorPosition pieces
  have isSwallowed : Swallowed pieces ↔ swallows false pieces = true := by
    simp [swallows_iff]
  constructor
  · intro answersEach
    have visibleData := answersEach.data
    have kept : swallows false pieces = false := by
      have counted := length_passPieces cursorPosition false
        (pieces.filter fun piece => piece.colorQueries.isNone)
      rw [← data, visibleData, ← filter_isQuery, swallows_filter] at counted
      cases swallowed : swallows false pieces with
      | false => rfl
      | true =>
          rw [swallowed] at counted
          exact absurd counted (Nat.not_succ_le_self _)
    refine ⟨?_, ?_⟩
    · have inOrder := answersEach.responses
      rw [responses, (passPieces_of_not_swallows cursorPosition
          ((swallows_filter false pieces).trans kept)).2, flatMap_csiAnswers_filter] at inOrder
      exact (answers_in_order_iff pieces).mp inOrder.symm
    · rw [isSwallowed, kept]
      exact Bool.false_ne_true
  · rintro ⟨colorsFirst, unswallowed⟩
    have kept : swallows false pieces = false := by
      rwa [isSwallowed, Bool.not_eq_true] at unswallowed
    obtain ⟨shown, csi⟩ := passPieces_of_not_swallows cursorPosition
      ((swallows_filter false pieces).trans kept)
    refine ⟨?_, ?_, ?_⟩
    · rw [responses, csi, flatMap_csiAnswers_filter, (answers_in_order_iff pieces).mpr colorsFirst]
    · intro piece _ isQuery nothing
      obtain ⟨noColors, noOther⟩ := List.append_eq_nil_iff.mp nothing
      rw [Piece.isQuery, Piece.colorAnswers_eq_nil_iff.mp noColors,
        Piece.csiAnswers_eq_nil_iff.mp noOther] at isQuery
      cases isQuery
    · rw [data, shown, filter_isQuery]

end Chunk

/-- Characters are inserted, and the place of the cursor is asked for. -/
def insertAndAsk : List Piece :=
  [.csi ['4'] '@' (by simp [isFinal, esc]) (by simp [isFinal]),
    .csi ['6'] 'n' (by simp [isFinal, esc]) (by simp [isFinal])]

theorem insertAndAsk_not_answered : ¬ ∀ (profile : TerminalProtocolProfile)
    (cursorPosition : Option (UInt16 × UInt16)) (pieces : List Piece),
      AnswersEach profile cursorPosition pieces := by
  intro claimed
  have shown := (claimed blackProfile none insertAndAsk).data
  have silent : (processWithCursor blackProfile none [] (textOf insertAndAsk)).result.data =
      textOf insertAndAsk := by
    decide +kernel
  rw [silent] at shown
  exact absurd shown (by decide)

end Yggterm.Reader
