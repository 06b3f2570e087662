import Mathlib.Data.Char
import Mathlib.Data.List.Infix
import Mathlib.Tactic.IntervalCases
import Yggterm.Library.Text

/-!
# JSON texts

Values and the compact writing of them, with the escapes of `serde_json`.  A string is read
back up to the quote that ends it; a quote is bare when no backslash stands before it.
-/

namespace Json

/-! ## Strings -/

/-- A character inside a string. -/
def escapeChar (char : Char) : List Char :=
  if char = '"' then ['\\', '"']
  else if char = '\\' then ['\\', '\\']
  else if char.toNat = 0x08 then ['\\', 'b']
  else if char.toNat = 0x0c then ['\\', 'f']
  else if char = '\n' then ['\\', 'n']
  else if char = '\r' then ['\\', 'r']
  else if char = '\t' then ['\\', 't']
  else if char.toNat < 0x20 then
    ['\\', 'u', '0', '0', Nat.digitChar (char.toNat / 16), Nat.digitChar (char.toNat % 16)]
  else [char]

def escape (text : List Char) : List Char := text.flatMap escapeChar

/-- A string, with its quotes. -/
def quoted (text : List Char) : List Char := '"' :: (escape text ++ ['"'])

theorem escapeChar_of_plain {char : Char} (notQuote : char ≠ '"') (notBackslash : char ≠ '\\')
    (notControl : ¬ char.toNat < 0x20) : escapeChar char = [char] := by
  have solid : char.toNat ≠ 0x08 ∧ char.toNat ≠ 0x0c := by omega
  have notNewline : char ≠ '\n' := by
    rintro rfl
    exact notControl (by decide)
  have notReturn : char ≠ '\r' := by
    rintro rfl
    exact notControl (by decide)
  have notTab : char ≠ '\t' := by
    rintro rfl
    exact notControl (by decide)
  rw [escapeChar, if_neg notQuote, if_neg notBackslash, if_neg solid.1, if_neg solid.2,
    if_neg notNewline, if_neg notReturn, if_neg notTab, if_neg notControl]

/-- The inside of a string has no control characters. -/
theorem toNat_of_mem_escape {char : Char} {text : List Char} (member : char ∈ escape text) :
    0x20 ≤ char.toNat := by
  have digit : ∀ value < 16, 0x20 ≤ (Nat.digitChar value).toNat := by decide
  have pair : ∀ letter : Char, 0x20 ≤ letter.toNat → char ∈ ['\\', letter] → 0x20 ≤ char.toNat := by
    intro letter solid inPair
    rcases List.mem_pair.mp inPair with rfl | rfl
    · decide
    · exact solid
  obtain ⟨original, _, inCode⟩ := List.mem_flatMap.mp member
  unfold escapeChar at inCode
  split_ifs at inCode with _ _ _ _ _ _ _ isControl
  · exact pair _ (by decide) inCode
  · exact pair _ (by decide) inCode
  · exact pair _ (by decide) inCode
  · exact pair _ (by decide) inCode
  · exact pair _ (by decide) inCode
  · exact pair _ (by decide) inCode
  · exact pair _ (by decide) inCode
  · simp only [List.mem_cons, List.not_mem_nil, or_false] at inCode
    rcases inCode with rfl | rfl | rfl | rfl | rfl | rfl
    · decide
    · decide
    · decide
    · decide
    · exact digit _ (by omega)
    · exact digit _ (by omega)
  · rw [List.mem_singleton.mp inCode]
    omega

def hexValue (char : Char) : Option Nat :=
  if char.isDigit then some (char.toNat - '0'.toNat)
  else if 'a' ≤ char ∧ char ≤ 'f' then some (char.toNat - 'a'.toNat + 10)
  else if 'A' ≤ char ∧ char ≤ 'F' then some (char.toNat - 'A'.toNat + 10)
  else none

/-- What a backslash and the character after it stand for. -/
def unescape (letter : Char) : Option Char :=
  if letter = '"' ∨ letter = '\\' ∨ letter = '/' then some letter
  else if letter = 'b' then some (Char.ofNat 0x08)
  else if letter = 'f' then some (Char.ofNat 0x0c)
  else if letter = 'n' then some '\n'
  else if letter = 'r' then some '\r'
  else if letter = 't' then some '\t'
  else none

/-- Where a reader stands in a string: at a character, behind a backslash, or among the
digits of a `\u`, of which some are left. -/
inductive Reading where
  | inside
  | escaped
  | code (left value : Nat)

/-- The inside of a string up to the quote that ends it, and what follows that quote. -/
def readString : Reading → List Char → Option (List Char × List Char)
  | _, [] => none
  | .inside, first :: rest =>
      if first = '"' then some ([], rest)
      else if first = '\\' then readString .escaped rest
      else (readString .inside rest).map fun read => (first :: read.1, read.2)
  | .escaped, first :: rest =>
      if first = 'u' then readString (.code 4 0) rest
      else
        match unescape first with
        | none => none
        | some char => (readString .inside rest).map fun read => (char :: read.1, read.2)
  | .code left value, first :: rest =>
      match hexValue first with
      | none => none
      | some digit =>
          if left = 1 then
            (readString .inside rest).map fun read =>
              (Char.ofNat (16 * value + digit) :: read.1, read.2)
          else readString (.code (left - 1) (16 * value + digit)) rest

theorem readString_escapeChar (char : Char) (text : List Char) :
    readString .inside (escapeChar char ++ text) =
      (readString .inside text).map fun read => (char :: read.1, read.2) := by
  by_cases isQuote : char = '"'
  · subst isQuote
    rfl
  by_cases isBackslash : char = '\\'
  · subst isBackslash
    rfl
  by_cases isControl : char.toNat < 0x20
  · rw [← Char.ofNat_toNat char]
    generalize char.toNat = value at isControl
    interval_cases value <;> rfl
  · rw [escapeChar_of_plain isQuote isBackslash isControl]
    simp [readString, isQuote, isBackslash]

theorem readString_escape (text rest : List Char) :
    readString .inside (escape text ++ '"' :: rest) = some (text, rest) := by
  induction text with
  | nil => rfl
  | cons char others inductionHypothesis =>
      have isEscape : escape (char :: others) = escapeChar char ++ escape others := rfl
      rw [isEscape, List.append_assoc, readString_escapeChar, inductionHypothesis]
      rfl

/-! ## Bare quotes -/

/-- The number of quotes that no backslash stands before. -/
def bareQuotes : List Char → Nat
  | [] => 0
  | first :: rest =>
      if first = '\\' then
        match rest with
        | [] => 0
        | _ :: rest => bareQuotes rest
      else if first = '"' then bareQuotes rest + 1
      else bareQuotes rest

theorem bareQuotes_cons {first : Char} (notBackslash : first ≠ '\\') (rest : List Char) :
    bareQuotes (first :: rest) = bareQuotes rest + if first = '"' then 1 else 0 := by
  rw [bareQuotes.eq_def]
  simp only [if_neg notBackslash]
  split
  · rfl
  · rfl

theorem bareQuotes_append_of_not_mem {front : List Char} (plain : '\\' ∉ front)
    (rest : List Char) : bareQuotes (front ++ rest) = front.count '"' + bareQuotes rest := by
  induction front with
  | nil => simp
  | cons first others inductionHypothesis =>
      obtain ⟨notBackslash, othersPlain⟩ := not_or.mp (mt List.mem_cons.mpr plain)
      rw [List.cons_append, bareQuotes_cons (Ne.symm notBackslash),
        inductionHypothesis othersPlain, List.count_cons]
      simp only [beq_iff_eq]
      omega

/-- A text keeps its bare quotes behind another, where its first character is none: a
backslash at the end of the other can only escape that one. -/
theorem bareQuotes_append {first : Char} (notQuote : first ≠ '"') (notBackslash : first ≠ '\\')
    (front rest : List Char) :
    bareQuotes (front ++ first :: rest) = bareQuotes front + bareQuotes (first :: rest) := by
  fun_induction bareQuotes front with
  | case1 => simp
  | case2 =>
      rw [bareQuotes_cons notBackslash, if_neg notQuote]
      simp [bareQuotes]
  | case3 char others inductionHypothesis =>
      rw [← inductionHypothesis]
      simp [bareQuotes]
  | case4 others notBackslash inductionHypothesis =>
      rw [List.cons_append, bareQuotes_cons notBackslash, inductionHypothesis]
      simp
      omega
  | case5 char others notBackslash notQuote inductionHypothesis =>
      rw [List.cons_append, bareQuotes_cons notBackslash, inductionHypothesis, if_neg notQuote]
      rfl

theorem hexValue_ne {char : Char} {value : Nat} (isHex : hexValue char = some value) :
    char ≠ '"' ∧ char ≠ '\\' := by
  have none : hexValue '"' = none ∧ hexValue '\\' = none := by decide
  constructor
  · rintro rfl
    simp [none.1] at isHex
  · rintro rfl
    simp [none.2] at isHex

/-- What a reader has passed of the character it stands in. -/
def Reading.passed : Reading → List Char
  | .escaped => ['\\']
  | _ => []

/-- Reading a string passes the one bare quote that ends it. -/
theorem bareQuotes_readString {reading : Reading} {text read rest : List Char}
    (isRead : readString reading text = some (read, rest)) :
    bareQuotes (reading.passed ++ text) = bareQuotes rest + 1 := by
  induction text generalizing reading read with
  | nil => simp [readString] at isRead
  | cons first others inductionHypothesis =>
      cases reading with
      | inside =>
          rw [readString] at isRead
          by_cases isQuote : first = '"'
          · rw [if_pos isQuote] at isRead
            cases isRead
            subst isQuote
            exact bareQuotes_cons (by decide) rest
          rw [if_neg isQuote] at isRead
          by_cases isBackslash : first = '\\'
          · rw [if_pos isBackslash] at isRead
            subst isBackslash
            exact inductionHypothesis isRead
          · rw [if_neg isBackslash] at isRead
            obtain ⟨⟨later, _⟩, laterRead, same⟩ := Option.map_eq_some_iff.mp isRead
            cases same
            rw [← inductionHypothesis laterRead]
            change bareQuotes (first :: others) = _
            rw [bareQuotes_cons isBackslash, if_neg isQuote]
            rfl
      | escaped =>
          have skips : bareQuotes ('\\' :: first :: others) = bareQuotes others := rfl
          rw [readString] at isRead
          change bareQuotes ('\\' :: first :: others) = _
          rw [skips]
          split at isRead
          · exact inductionHypothesis isRead
          · split at isRead
            · cases isRead
            · obtain ⟨⟨later, _⟩, laterRead, same⟩ := Option.map_eq_some_iff.mp isRead
              cases same
              exact inductionHypothesis laterRead
      | code left value =>
          rw [readString] at isRead
          change bareQuotes (first :: others) = _
          split at isRead
          · cases isRead
          · next digit isHex =>
              obtain ⟨notQuote, notBackslash⟩ := hexValue_ne isHex
              rw [bareQuotes_cons notBackslash, if_neg notQuote]
              split at isRead
              · obtain ⟨⟨later, _⟩, laterRead, same⟩ := Option.map_eq_some_iff.mp isRead
                cases same
                exact inductionHypothesis laterRead
              · exact inductionHypothesis isRead

/-! ## Values -/

/-- A number: unsigned, negative, or a float as it is written. -/
inductive Number where
  | unsigned (value : Fin (2 ^ 64))
  | negative (magnitude : Nat)
  | float (written : List Char)

inductive Value where
  | null
  | bool (value : Bool)
  | number (number : Number)
  | string (text : List Char)
  | array (items : List Value)
  | object (fields : List (List Char × Value))

def Number.render : Number → List Char
  | .unsigned value => Nat.toDigits 10 value
  | .negative magnitude => '-' :: Nat.toDigits 10 magnitude
  | .float written => written

mutual

/-- The compact writing of a value. -/
def Value.render : Value → List Char
  | .null => "null".toList
  | .bool value => if value then "true".toList else "false".toList
  | .number number => number.render
  | .string text => quoted text
  | .array items => '[' :: ([','].intercalate (renderItems items) ++ [']'])
  | .object fields => '{' :: ([','].intercalate (renderFields fields) ++ ['}'])

def renderItems : List Value → List (List Char)
  | [] => []
  | item :: rest => item.render :: renderItems rest

def renderFields : List (List Char × Value) → List (List Char)
  | [] => []
  | field :: rest => renderField field :: renderFields rest

def renderField : List Char × Value → List Char
  | (key, value) => quoted key ++ ':' :: value.render

end

/-- `Value::get` at a key. -/
def Value.get (key : List Char) : Value → Option Value
  | .object fields => (fields.find? fun field => field.1 = key).map Prod.snd
  | _ => none

/-- `Value::as_u64`. -/
def Value.asU64 : Value → Option (Fin (2 ^ 64))
  | .number (.unsigned value) => some value
  | _ => none

/-- `Value::as_str`. -/
def Value.asStr : Value → Option (List Char)
  | .string text => some text
  | _ => none

/-- `Value::as_array`. -/
def Value.asArray : Value → Option (List Value)
  | .array items => some items
  | _ => none

/-- `Value::as_object`. -/
def Value.asObject : Value → Option (List (List Char × Value))
  | .object fields => some fields
  | _ => none

/-- `Value::as_bool`. -/
def Value.asBool : Value → Option Bool
  | .bool value => some value
  | _ => none

theorem renderFields_eq (fields : List (List Char × Value)) :
    renderFields fields = fields.map renderField := by
  induction fields with
  | nil => rfl
  | cons field rest inductionHypothesis =>
      rw [renderFields, inductionHypothesis]
      rfl

/-- A field of an object stands in its writing, before a comma or the brace that ends it. -/
theorem render_of_get {record value : Value} {key : List Char}
    (isField : record.get key = some value) :
    ∃ before after, record.render = before ++ (quoted key ++ ':' :: (value.render ++ after)) ∧
      (after.head? = some ',' ∨ after.head? = some '}') := by
  cases record with
  | object fields =>
      obtain ⟨⟨same, found⟩, isFound, rfl⟩ := Option.map_eq_some_iff.mp isField
      obtain ⟨isKey, front, back, rfl, _⟩ := List.find?_eq_some_iff_append.mp isFound
      obtain rfl : same = key := by simpa using isKey
      let before := '{' :: (front.map renderField).flatMap (· ++ [','])
      have isRender : Value.render (.object (front ++ (same, found) :: back)) =
          before ++ ([','].intercalate (renderField (same, found) :: back.map renderField) ++
            ['}']) := by
        rw [Value.render, renderFields_eq, List.map_append, List.map_cons,
          Text.intercalate_append (by simp)]
        simp [before]
      cases back with
      | nil =>
          refine ⟨before, ['}'], ?_, .inr rfl⟩
          rw [isRender]
          simp [renderField]
      | cons next others =>
          refine ⟨before, ',' :: ([','].intercalate ((next :: others).map renderField) ++ ['}']),
            ?_, .inl rfl⟩
          rw [isRender, List.map_cons, List.intercalate_cons_cons]
          simp [renderField]
  | _ => cases isField

end Json
