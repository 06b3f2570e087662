import Yggterm.Reader.Osc

/-!
# The terminal protocol filter

`TerminalProtocolFilter` (`yggterm-server/src/terminal.rs`) takes the colour, status
and attribute queries out of the output and answers them itself.  A call first goes
through the OSC sequences, then through the CSI sequences of what is left visible.
-/

namespace Yggterm.Reader

open Search

def terminalProtocolMaxPendingBytes : Nat := 256

def oscPaletteCode : Nat := 4

def oscColorForegroundCode : Nat := 10

def oscColorBackgroundCode : Nat := 11

/-! ## Colours -/

abbrev Rgb := UInt8 × UInt8 × UInt8

def levels : Vector UInt8 6 := #v[0x00, 0x5f, 0x87, 0xaf, 0xd7, 0xff]

/-- The colour cube and the grey ramp, which no theme changes. -/
def xterm256Color (slot : Nat) : Option Rgb :=
  if 16 ≤ slot ∧ slot ≤ 231 then
    let index := slot - 16
    some (levels[index / 36 % 6], levels[index / 6 % 6], levels[index % 6])
  else if 232 ≤ slot ∧ slot ≤ 255 then
    let component := 8 + 10 * (slot - 232)
    if component ≤ 255 then
      some (UInt8.ofNat component, UInt8.ofNat component, UInt8.ofNat component)
    else none
  else none

structure TerminalProtocolProfile where
  foreground : Rgb
  background : Rgb
  palette : Vector Rgb 16

structure TerminalProtocolColorQuery where
  code : Nat
  slot : Nat
  deriving DecidableEq

/-- `{value:02x}{value:02x}` -/
def oscRgbComponent (value : UInt8) : List Char :=
  let digits := [Nat.digitChar (value.toNat / 16), Nat.digitChar (value.toNat % 16)]
  digits ++ digits

def TerminalProtocolProfile.color (profile : TerminalProtocolProfile)
    (query : TerminalProtocolColorQuery) : Option Rgb :=
  if query.code = oscColorForegroundCode then some profile.foreground
  else if query.code = oscColorBackgroundCode then some profile.background
  else if query.code = oscPaletteCode then
    match profile.palette[query.slot]? with
    | some color => some color
    | none => xterm256Color query.slot
  else none

def TerminalProtocolProfile.oscColorResponse (profile : TerminalProtocolProfile)
    (query : TerminalProtocolColorQuery) : Option (List Char) :=
  (profile.color query).map fun (red, green, blue) =>
    let responseSlot :=
      if query.code = oscPaletteCode then Nat.toDigits 10 query.slot
      else Nat.toDigits 10 query.code
    [esc, ']'] ++
      (if query.code = oscPaletteCode then ['4', ';'] ++ responseSlot else responseSlot) ++
      [';', 'r', 'g', 'b', ':'] ++ oscRgbComponent red ++ ['/'] ++ oscRgbComponent green ++
      ['/'] ++ oscRgbComponent blue ++ stringTerminator

/-! ## Colour queries -/

def oscSequenceMightNeedFiltering (content : List Char) : Bool :=
  ['1', '0', ';', '?'].isPrefixOf content || ['1', '1', ';', '?'].isPrefixOf content ||
    ['4', ';'].isPrefixOf content

/-- `str::parse::<u16>`: digits, with a `+` before them or not. -/
def parseU16 (text : List Char) : Option Nat :=
  let digits := if text.head? = some '+' then text.tail else text
  if digits ≠ [] ∧ digits.all Char.isDigit then
    let value := digits.foldl (fun value digit => 10 * value + (digit.toNat - '0'.toNat)) 0
    if value < 2 ^ 16 then some value else none
  else none

/-- The loop over the parts: a slot, a `?`, and so on. -/
def parsePaletteQueries : List (List Char) → Option (List TerminalProtocolColorQuery)
  | [] => some []
  | [_] => none
  | slotValue :: request :: parts =>
      if request ≠ ['?'] then none
      else
        match parseU16 slotValue with
        | none => none
        | some slot =>
            if 255 < slot then none
            else (parsePaletteQueries parts).map ({ code := oscPaletteCode, slot } :: ·)

def parseOscColorQueryContent (content : List Char) : Option (List TerminalProtocolColorQuery) :=
  if content = ['1', '0', ';', '?'] then
    some [{ code := oscColorForegroundCode, slot := oscColorForegroundCode }]
  else if content = ['1', '1', ';', '?'] then
    some [{ code := oscColorBackgroundCode, slot := oscColorBackgroundCode }]
  else if ['4', ';'] <+: content then
    match parsePaletteQueries ((content.drop 2).splitOn ';') with
    | some [] => none
    | queries => queries
  else none

/-- `find_osc_terminator`: BEL only if it comes before ST. -/
def findOscTerminator (content : List Char) : Option Closing :=
  match findText [bel] content, findText stringTerminator content with
  | some bell, some string =>
      if bell.1.length < string.1.length then
        some { content := bell.1, terminator := [bel], rest := bell.2 }
      else some { content := string.1, terminator := stringTerminator, rest := string.2 }
  | some bell, none => some { content := bell.1, terminator := [bel], rest := bell.2 }
  | none, some string =>
      some { content := string.1, terminator := stringTerminator, rest := string.2 }
  | none, none => none

theorem findOscTerminator_eq_closing (content : List Char) :
    findOscTerminator content = closing content := by
  rw [← nearer_findText content, findOscTerminator]
  cases bells : findText [bel] content with
  | none => cases findText stringTerminator content <;> rfl
  | some bell =>
      cases strings : findText stringTerminator content with
      | none => rfl
      | some string =>
          have apart := findText_terminators_ne bells strings
          have sameChoice : bell.1.length < string.1.length ↔ bell.1.length ≤ string.1.length := by
            omega
          simp only [nearer, sameChoice]

/-! ## Results -/

structure TerminalProtocolFilterResult where
  data : List Char
  responses : List (List Char)
  answeredQueries : List TerminalProtocolColorQuery
  deriving DecidableEq

namespace TerminalProtocolFilterResult

/-- Text that only passes through. -/
def visible (text : List Char) : TerminalProtocolFilterResult :=
  { data := text, responses := [], answeredQueries := [] }

/-- An answer without a colour query behind it. -/
def answered (response : List Char) : TerminalProtocolFilterResult :=
  { data := [], responses := [response], answeredQueries := [] }

instance : Append TerminalProtocolFilterResult where
  append first second :=
    { data := first.data ++ second.data
      responses := first.responses ++ second.responses
      answeredQueries := first.answeredQueries ++ second.answeredQueries }

@[simp]
theorem append_data (first second : TerminalProtocolFilterResult) :
    (first ++ second).data = first.data ++ second.data := rfl

@[simp]
theorem append_responses (first second : TerminalProtocolFilterResult) :
    (first ++ second).responses = first.responses ++ second.responses := rfl

@[simp]
theorem append_answeredQueries (first second : TerminalProtocolFilterResult) :
    (first ++ second).answeredQueries = first.answeredQueries ++ second.answeredQueries := rfl

@[simp]
theorem visible_append (first second : List Char) :
    visible first ++ visible second = visible (first ++ second) := rfl

@[simp]
theorem visible_nil_append (result : TerminalProtocolFilterResult) :
    visible [] ++ result = result := rfl

@[simp]
theorem append_visible_nil (result : TerminalProtocolFilterResult) :
    result ++ visible [] = result := by
  cases result
  change TerminalProtocolFilterResult.mk _ _ _ = _
  simp [visible]

theorem append_assoc (first second third : TerminalProtocolFilterResult) :
    first ++ second ++ third = first ++ (second ++ third) := by
  change TerminalProtocolFilterResult.mk _ _ _ = TerminalProtocolFilterResult.mk _ _ _
  simp

end TerminalProtocolFilterResult

/-- What a call gives out and what it holds back. -/
structure Filtered where
  result : TerminalProtocolFilterResult
  pending : List Char
  deriving DecidableEq

def Filtered.after (front : TerminalProtocolFilterResult) (later : Filtered) : Filtered :=
  { later with result := front ++ later.result }

@[simp]
theorem Filtered.after_pending (front : TerminalProtocolFilterResult) (later : Filtered) :
    (later.after front).pending = later.pending := rfl

@[simp]
theorem Filtered.after_result (front : TerminalProtocolFilterResult) (later : Filtered) :
    (later.after front).result = front ++ later.result := rfl

open TerminalProtocolFilterResult

/-! ## The OSC pass -/

section Osc

variable (profile : TerminalProtocolProfile)

def answerQueries : List TerminalProtocolColorQuery → TerminalProtocolFilterResult
  | [] => visible []
  | query :: queries =>
      match profile.oscColorResponse query with
      | some response =>
          { data := [], responses := [response], answeredQueries := [query] } ++
            answerQueries queries
      | none => answerQueries queries

/-- The first loop of `process_with_cursor`, on the text from `cursor` on. -/
def processOsc (combined : List Char) : Filtered :=
  match _opened : findText [esc, ']'] combined with
  | none => { result := visible combined, pending := [] }
  | some (before, content) =>
      if oscSequenceMightNeedFiltering content then
        match _closed : findOscTerminator content with
        | none =>
            let pending := [esc, ']'] ++ content
            if terminalProtocolMaxPendingBytes < byteLength pending then
              { result := visible (before ++ pending), pending := [] }
            else { result := visible before, pending }
        | some closed =>
            match parseOscColorQueryContent closed.content with
            | none =>
                (processOsc closed.rest).after
                  (visible (before ++ [esc, ']'] ++ closed.content ++ closed.terminator))
            | some queries =>
                (processOsc closed.rest).after (visible before ++ answerQueries profile queries)
      else (processOsc content).after (visible (before ++ [esc, ']']))
termination_by combined.length
decreasing_by
  · exact Nat.lt_of_le_of_lt (closing_shrinks ((findOscTerminator_eq_closing _).symm.trans _closed))
      (length_lt_of_findText (by simp) _opened)
  · exact Nat.lt_of_le_of_lt (closing_shrinks ((findOscTerminator_eq_closing _).symm.trans _closed))
      (length_lt_of_findText (by simp) _opened)
  · exact length_lt_of_findText (by simp) _opened

end Osc

/-! ## The CSI pass -/

/-- The text through its first ASCII letter, and what follows. -/
def upToLetter : List Char → Option (List Char × List Char)
  | [] => none
  | char :: rest =>
      if char.isAlpha then some ([char], rest)
      else (upToLetter rest).map fun (front, after) => (char :: front, after)

theorem upToLetter_eq {text front after : List Char}
    (found : upToLetter text = some (front, after)) :
    text = front ++ after := by
  induction text generalizing front with
  | nil => cases found
  | cons char rest inductionHypothesis =>
      rw [upToLetter] at found
      split at found
      · cases found
        rfl
      · obtain ⟨⟨laterFront, laterAfter⟩, laterFound, isFound⟩ := Option.map_eq_some_iff.mp found
        cases isFound
        rw [inductionHypothesis laterFound]
        rfl

section Csi

variable (cursorPosition : Option (UInt16 × UInt16))

/-- `saturating_add(1).max(1)` on a `u16`. -/
def oneBased (index : UInt16) : Nat := max (min (index.toNat + 1) (2 ^ 16 - 1)) 1

/-- The answer to a complete CSI sequence, if it is one of the known queries. -/
def csiResponse (sequence : List Char) : Option (List Char) :=
  if sequence = [esc, '[', '6', 'n'] then
    let (row, col) := cursorPosition.getD (0, 0)
    some ([esc, '['] ++ Nat.toDigits 10 (oneBased row) ++ [';'] ++
      Nat.toDigits 10 (oneBased col) ++ ['R'])
  else if sequence = [esc, '[', '5', 'n'] then some [esc, '[', '0', 'n']
  else if sequence = [esc, '[', 'c'] ∨ sequence = [esc, '[', '0', 'c'] then
    some [esc, '[', '?', '1', ';', '2', 'c']
  else if sequence = [esc, '[', '>', 'c'] ∨ sequence = [esc, '[', '>', '0', 'c'] then
    some [esc, '[', '>', '0', ';', '2', '7', '7', ';', '0', 'c']
  else none

/-- The second loop of `process_with_cursor`, on the text from `i` on. -/
def processCsi : List Char → TerminalProtocolFilterResult
  | [] => visible []
  | char :: rest =>
      if char = esc ∧ rest.head? = some '[' then
        match _ends : upToLetter rest.tail with
        | some (tail, after) =>
            match csiResponse cursorPosition (esc :: '[' :: tail) with
            | some response => answered response ++ processCsi after
            | none => visible (esc :: '[' :: tail) ++ processCsi after
        | none => visible (char :: rest)
      else visible [char] ++ processCsi rest
termination_by text => text.length
decreasing_by
  all_goals
    simp only [List.length_cons]
  · have := congrArg List.length (upToLetter_eq _ends)
    simp only [List.length_append, List.length_tail] at this
    omega
  · have := congrArg List.length (upToLetter_eq _ends)
    simp only [List.length_append, List.length_tail] at this
    omega
  · omega

end Csi

/-! ## The filter -/

section Filter

variable (profile : TerminalProtocolProfile) (cursorPosition : Option (UInt16 × UInt16))

def processWithCursor (pending data : List Char) : Filtered :=
  if data = [] ∧ pending = [] then { result := visible [], pending := [] }
  else
    let osc := processOsc profile (pending ++ data)
    let csi := processCsi cursorPosition osc.result.data
    { result :=
        { data := csi.data
          responses := osc.result.responses ++ csi.responses
          answeredQueries := osc.result.answeredQueries }
      pending := osc.pending }

/-- One more chunk, behind what came out already. -/
def Filtered.feed (filtered : Filtered) (chunk : List Char) : Filtered :=
  (processWithCursor profile cursorPosition filtered.pending chunk).after filtered.result

/-- A fresh filter fed chunk after chunk. -/
def processChunks (chunks : List (List Char)) : Filtered :=
  chunks.foldl (Filtered.feed profile cursorPosition) { result := visible [], pending := [] }

end Filter

end Yggterm.Reader
