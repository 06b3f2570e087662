import Mathlib.Data.Nat.Digits.Defs
import Yggterm.Library.Forms
import Yggterm.Library.Json
import Yggterm.Library.Lines
import Yggterm.PtyHandoff.Wire

/-!
# The lines as they are written

The metadata, the verdict and the ack with their keys in their order, and readers of the lines
that are written so.  An ack is also read from an array, as a derived reader does.
-/

namespace Yggterm.PtyHandoff

open Forms Json Text

/-! ## Pieces -/

/-- What stands before a value. -/
def key (text : String) : List Char := text.toList

def stripFront (front text : List Char) : Option (List Char) :=
  if front <+: text then some (text.drop front.length) else none

theorem stripFront_append (front text : List Char) :
    stripFront front (front ++ text) = some text := by
  rw [stripFront, if_pos (List.prefix_append front text), List.drop_left]

def writeBool (value : Bool) : List Char := if value then "true".toList else "false".toList

def readBool (text : List Char) : Option (Bool × List Char) :=
  match stripFront "true".toList text with
  | some rest => some (true, rest)
  | none => (stripFront "false".toList text).map fun rest => (false, rest)

theorem readBool_writeBool (value : Bool) (rest : List Char) :
    readBool (writeBool value ++ rest) = some (value, rest) := by
  cases value with
  | true => simp [readBool, writeBool, stripFront]
  | false => simp [readBool, writeBool, stripFront]

def writeNumber {bits : Nat} (value : Fin (2 ^ bits)) : List Char := Nat.toDigits 10 value

def readNumber (bits : Nat) (text : List Char) : Option (Fin (2 ^ bits) × List Char) :=
  (parseUnsigned bits (text.takeWhile Char.isDigit)).map fun value =>
    (Fin.ofNat _ value, text.dropWhile Char.isDigit)

/-- A text that begins with one of the keys. -/
def Begins (keys : List (List Char)) (text : List Char) : Prop := ∃ first ∈ keys, first <+: text

theorem begins_append (key text : List Char) : Begins [key] (key ++ text) :=
  ⟨key, List.mem_singleton_self key, List.prefix_append key text⟩

theorem Begins.absent {keys : List (List Char)} {key text : List Char} (begins : Begins keys text)
    (other : ∀ first ∈ keys, ¬ key <+: first ∧ ¬ first <+: key) : ¬ key <+: text := by
  obtain ⟨first, member, isFirst⟩ := begins
  intro isKey
  exact (List.prefix_or_prefix_of_prefix isKey isFirst).elim (other first member).1
    (other first member).2

/-- A number ends where no digit follows. -/
theorem readNumber_writeNumber {bits : Nat} (value : Fin (2 ^ bits)) {keys : List (List Char)}
    {text : List Char} (begins : Begins keys text)
    (ends : ∀ first ∈ keys, first.head?.map Char.isDigit = some false) :
    readNumber bits (writeNumber value ++ text) = some (value, text) := by
  have isDigits : ∀ char ∈ Nat.toDigits 10 value, char.isDigit = true :=
    fun char member => Nat.isDigit_of_mem_toDigits (by decide) (by decide) member
  obtain ⟨first, member, rest, rfl⟩ := begins
  obtain ⟨char, others, rfl⟩ : ∃ char others, first = char :: others := by
    cases first with
    | nil => cases ends [] member
    | cons char others => exact ⟨char, others, rfl⟩
  have notDigit : char.isDigit = false := by simpa using ends _ member
  have taken : (char :: others ++ rest).takeWhile Char.isDigit = [] :=
    List.takeWhile_cons_of_neg (by simp [notDigit])
  have dropped : (char :: others ++ rest).dropWhile Char.isDigit = char :: others ++ rest :=
    List.dropWhile_cons_of_neg (by simp [notDigit])
  rw [readNumber, writeNumber, List.takeWhile_append_of_pos isDigits, taken, List.append_nil,
    List.dropWhile_append_of_pos isDigits, dropped, parseUnsigned_toDigits, if_pos value.isLt,
    Option.map_some, Fin.ofNat_val_eq_self]

def readQuoted (text : List Char) : Option (List Char × List Char) := do
  let text ← stripFront ['"'] text
  readString .inside text

theorem readQuoted_quoted (text rest : List Char) :
    readQuoted (quoted text ++ rest) = some (text, rest) := by
  have isQuoted : quoted text ++ rest = ['"'] ++ (escape text ++ '"' :: rest) := by simp [quoted]
  rw [readQuoted, isQuoted, stripFront_append]
  exact readString_escape text rest

def writeOptional : Option (List Char) → List Char
  | none => "null".toList
  | some text => quoted text

def readOptional (text : List Char) : Option (Option (List Char) × List Char) :=
  match stripFront "null".toList text with
  | some rest => some (none, rest)
  | none => (readQuoted text).map fun read => (some read.1, read.2)

theorem readOptional_writeOptional (value : Option (List Char)) (rest : List Char) :
    readOptional (writeOptional value ++ rest) = some (value, rest) := by
  cases value with
  | none => simp [readOptional, writeOptional, stripFront]
  | some text =>
      have notNull : stripFront "null".toList (quoted text ++ rest) = none := by
        simp [stripFront, quoted]
      rw [readOptional, writeOptional, notNull, readQuoted_quoted]
      rfl

/-- A field that is left out where it has no value. -/
def writeField {Value : Type} (key : List Char) (write : Value → List Char) :
    Option Value → List Char
  | none => []
  | some value => key ++ write value

def readField {Value : Type} (key : List Char) (read : List Char → Option (Value × List Char))
    (text : List Char) : Option (Option Value × List Char) :=
  match stripFront key text with
  | some rest => (read rest).map fun read => (some read.1, read.2)
  | none => some (none, text)

theorem Begins.writeField {Value : Type} {keys : List (List Char)} {text : List Char}
    (begins : Begins keys text) (key : List Char) (write : Value → List Char)
    (value : Option Value) : Begins (key :: keys) (writeField key write value ++ text) := by
  cases value with
  | none =>
      obtain ⟨first, member, isFirst⟩ := begins
      exact ⟨first, List.mem_cons_of_mem _ member, isFirst⟩
  | some value =>
      refine ⟨key, List.mem_cons_self, ?_⟩
      exact (List.prefix_append key _).trans (List.prefix_append _ text)

/-! ## Piece after piece -/

section Bind

variable {Value : Type}

theorem bind_stripFront (front text : List Char) (next : List Char → Option Value) :
    (stripFront front (front ++ text)).bind next = next text := by
  rw [stripFront_append, Option.bind_some]

theorem bind_readBool (value : Bool) (text : List Char) (next : Bool × List Char → Option Value) :
    (readBool (writeBool value ++ text)).bind next = next (value, text) := by
  rw [readBool_writeBool, Option.bind_some]

theorem bind_readNumber {bits : Nat} (value : Fin (2 ^ bits)) {key : List Char}
    (ends : ∀ first ∈ [key], first.head?.map Char.isDigit = some false) (text : List Char)
    (next : Fin (2 ^ bits) × List Char → Option Value) :
    (readNumber bits (writeNumber value ++ (key ++ text))).bind next =
        next (value, key ++ text) := by
  rw [readNumber_writeNumber value (begins_append key text) ends, Option.bind_some]

theorem bind_readQuoted (value text : List Char) (next : List Char × List Char → Option Value) :
    (readQuoted (quoted value ++ text)).bind next = next (value, text) := by
  rw [readQuoted_quoted, Option.bind_some]

theorem bind_readOptional (value : Option (List Char)) (text : List Char)
    (next : Option (List Char) × List Char → Option Value) :
    (readOptional (writeOptional value ++ text)).bind next = next (value, text) := by
  rw [readOptional_writeOptional, Option.bind_some]

theorem bind_readField {Field : Type} {key : List Char} {write : Field → List Char}
    {read : List Char → Option (Field × List Char)} {text : List Char} (absent : ¬ key <+: text)
    (readBack : ∀ value, read (write value ++ text) = some (value, text)) (value : Option Field)
    (next : Option Field × List Char → Option Value) :
    (readField key read (writeField key write value ++ text)).bind next = next (value, text) := by
  cases value with
  | none => rw [writeField, List.nil_append, readField, stripFront, if_neg absent, Option.bind_some]
  | some value =>
      rw [writeField, List.append_assoc, readField, stripFront_append]
      simp only [readBack, Option.map_some, Option.bind_some]

end Bind

/-! ## The metadata -/

def writeMetadata (metadata : HandoffMetadata) : List Char :=
  key "\x7b\"version\":" ++ (writeNumber metadata.version ++
  ((key ",\"runtime_key\":") ++ (quoted metadata.runtimeKey ++
  ((key ",\"launch_command\":") ++ (quoted metadata.launchCommand ++
  ((key ",\"cwd\":") ++ (writeOptional metadata.cwd ++
  ((key ",\"cols\":") ++ (writeNumber metadata.cols ++
  ((key ",\"rows\":") ++ (writeNumber metadata.rows ++
  ((key ",\"shell_pid\":") ++ (writeNumber metadata.shellPid ++
  ((key ",\"shell_start_time\":") ++ (writeNumber metadata.shellStartTime ++
  ((key ",\"screen\":") ++ (quoted metadata.screen ++
  ((key ",\"precommit_verdict\":") ++ (writeBool metadata.precommitVerdict ++
  (key "\x7d"))))))))))))))))))))

def readMetadata (text : List Char) : Option (HandoffMetadata × List Char) := do
  let text ← stripFront (key "\x7b\"version\":") text
  let (version, text) ← readNumber 32 text
  let text ← stripFront (key ",\"runtime_key\":") text
  let (runtimeKey, text) ← readQuoted text
  let text ← stripFront (key ",\"launch_command\":") text
  let (launchCommand, text) ← readQuoted text
  let text ← stripFront (key ",\"cwd\":") text
  let (cwd, text) ← readOptional text
  let text ← stripFront (key ",\"cols\":") text
  let (cols, text) ← readNumber 16 text
  let text ← stripFront (key ",\"rows\":") text
  let (rows, text) ← readNumber 16 text
  let text ← stripFront (key ",\"shell_pid\":") text
  let (shellPid, text) ← readNumber 32 text
  let text ← stripFront (key ",\"shell_start_time\":") text
  let (shellStartTime, text) ← readNumber 64 text
  let text ← stripFront (key ",\"screen\":") text
  let (screen, text) ← readQuoted text
  let text ← stripFront (key ",\"precommit_verdict\":") text
  let (precommitVerdict, text) ← readBool text
  let text ← stripFront (key "\x7d") text
  some (⟨version, runtimeKey, launchCommand, cwd, cols, rows, shellPid, shellStartTime, screen,
    precommitVerdict⟩, text)

theorem readMetadata_writeMetadata (metadata : HandoffMetadata) (rest : List Char) :
    readMetadata (writeMetadata metadata ++ rest) = some (metadata, rest) := by
  simp only [writeMetadata, List.append_assoc]
  unfold readMetadata
  repeat'
    first
    | exact bind_stripFront _ _ _
    | refine (bind_stripFront _ _ _).trans ?_
    | refine (bind_readNumber _ (by decide) _ _).trans ?_
    | refine (bind_readQuoted _ _ _).trans ?_
    | refine (bind_readOptional _ _ _).trans ?_
    | refine (bind_readBool _ _ _).trans ?_

def metadataForm : Form HandoffMetadata := ⟨writeMetadata, readMetadata, readMetadata_writeMetadata⟩

/-! ## What the successor says -/

def writeMessage : Message → List Char
  | .verdict verdict =>
      (key "\x7b\"precommit\":") ++ (writeBool verdict.precommit ++
      ((key ",\"proceed\":") ++ (writeBool verdict.proceed ++
      (writeField (key ",\"error\":") quoted verdict.error ++ (key "\x7d")))))
  | .ack ack =>
      (key "\x7b\"adopted\":") ++ (writeBool ack.adopted ++
      (writeField (key ",\"error\":") quoted ack.error ++
      (writeField (key ",\"adopter_pid\":") writeNumber ack.adopterPid ++
      (writeField (key ",\"adopter_start_time\":") writeNumber ack.adopterStartTime ++
      (key "\x7d")))))

def readVerdict (text : List Char) : Option (HandoffVerdict × List Char) := do
  let text ← stripFront (key "\x7b\"precommit\":") text
  let (precommit, text) ← readBool text
  let text ← stripFront (key ",\"proceed\":") text
  let (proceed, text) ← readBool text
  let (error, text) ← readField (key ",\"error\":") readQuoted text
  let text ← stripFront (key "\x7d") text
  some (⟨precommit, proceed, error⟩, text)

def readAck (text : List Char) : Option (HandoffAck × List Char) := do
  let text ← stripFront (key "\x7b\"adopted\":") text
  let (adopted, text) ← readBool text
  let (error, text) ← readField (key ",\"error\":") readQuoted text
  let (adopterPid, text) ← readField (key ",\"adopter_pid\":") (readNumber 32) text
  let (adopterStartTime, text) ← readField (key ",\"adopter_start_time\":") (readNumber 64) text
  let text ← stripFront (key "\x7d") text
  some (⟨adopted, error, adopterPid, adopterStartTime⟩, text)

def readMessage (text : List Char) : Option (Message × List Char) :=
  if key "\x7b\"precommit\":" <+: text then
    (readVerdict text).map fun read => (.verdict read.1, read.2)
  else (readAck text).map fun read => (.ack read.1, read.2)

theorem readVerdict_writeMessage (verdict : HandoffVerdict) (rest : List Char) :
    readVerdict (writeMessage (.verdict verdict) ++ rest) = some (verdict, rest) := by
  have closes := begins_append (key "\x7d") rest
  simp only [writeMessage, List.append_assoc]
  unfold readVerdict
  refine (bind_stripFront _ _ _).trans ?_
  refine (bind_readBool _ _ _).trans ?_
  refine (bind_stripFront _ _ _).trans ?_
  refine (bind_readBool _ _ _).trans ?_
  refine (bind_readField (closes.absent (by decide)) (fun reason => readQuoted_quoted reason _)
    _ _).trans ?_
  exact bind_stripFront _ _ _

theorem readAck_writeMessage (ack : HandoffAck) (rest : List Char) :
    readAck (writeMessage (.ack ack) ++ rest) = some (ack, rest) := by
  have closes := begins_append (key "\x7d") rest
  have isStarted := closes.writeField (key ",\"adopter_start_time\":") writeNumber
    ack.adopterStartTime
  have isNamed := isStarted.writeField (key ",\"adopter_pid\":") writeNumber ack.adopterPid
  simp only [writeMessage, List.append_assoc]
  unfold readAck
  refine (bind_stripFront _ _ _).trans ?_
  refine (bind_readBool _ _ _).trans ?_
  refine (bind_readField (isNamed.absent (by decide)) (fun reason => readQuoted_quoted reason _)
    _ _).trans ?_
  refine (bind_readField (isStarted.absent (by decide))
    (fun pid => readNumber_writeNumber pid isStarted (by decide)) _ _).trans ?_
  refine (bind_readField (closes.absent (by decide))
    (fun time => readNumber_writeNumber time closes (by decide)) _ _).trans ?_
  exact bind_stripFront _ _ _

theorem readMessage_writeMessage (message : Message) (rest : List Char) :
    readMessage (writeMessage message ++ rest) = some (message, rest) := by
  cases message with
  | verdict verdict =>
      have isVerdict : key "\x7b\"precommit\":" <+: writeMessage (.verdict verdict) ++ rest :=
        (List.prefix_append _ _).trans (List.prefix_append _ _)
      rw [readMessage, if_pos isVerdict, readVerdict_writeMessage]
      rfl
  | ack ack =>
      have isAck : key "\x7b\"adopted\":" <+: writeMessage (.ack ack) ++ rest :=
        (List.prefix_append _ _).trans (List.prefix_append _ _)
      have notVerdict :
          ¬ key "\x7b\"precommit\":" <+: writeMessage (.ack ack) ++ rest := fun begins =>
        (List.prefix_or_prefix_of_prefix begins isAck).elim (by decide) (by decide)
      rw [readMessage, if_neg notVerdict, readAck_writeMessage]
      rfl

def messageForm : Form Message := ⟨writeMessage, readMessage, readMessage_writeMessage⟩

/-! ## The codec -/

theorem newline_not_mem_encode {text : List Char} (clean : '\n' ∉ text) :
    newline ∉ Utf8.encode text := fun member =>
  clean (Utf8.mem_of_mem_encode (by decide) member)

theorem isBlank_encode {char : Char} {text : List Char} (member : char ∈ text)
    (solid : isWhitespace char = false) : isBlank (Utf8.encode text) = false := by
  rw [isBlank, Utf8.fromUtf8Lossy_encode, decide_eq_false_iff_not, trim_eq_nil_iff]
  intro blank
  rw [blank char member] at solid
  cases solid

/-- No line break is written but as an escape. -/
theorem newline_not_mem_quoted (text : List Char) : '\n' ∉ quoted text := by
  have clean : '\n' ∉ escape text := fun member => absurd (toNat_of_mem_escape member) (by decide)
  simp [quoted, clean]

theorem newline_not_mem_writeNumber {bits : Nat} (value : Fin (2 ^ bits)) :
    '\n' ∉ writeNumber value := fun member =>
  absurd (Nat.isDigit_of_mem_toDigits (by decide) (by decide) member) (by decide)

theorem newline_not_mem_writeBool (value : Bool) : '\n' ∉ writeBool value := by
  cases value with
  | true => decide
  | false => decide

theorem newline_not_mem_writeOptional (value : Option (List Char)) :
    '\n' ∉ writeOptional value := by
  cases value with
  | none => decide
  | some text => exact newline_not_mem_quoted text

theorem newline_not_mem_writeField {Value : Type} {key : List Char} {write : Value → List Char}
    (keyClean : '\n' ∉ key) (clean : ∀ value, '\n' ∉ write value) (value : Option Value) :
    '\n' ∉ writeField key write value := by
  cases value with
  | none => exact List.not_mem_nil
  | some value => simp [writeField, keyClean, clean]

theorem newline_not_mem_writeMetadata (metadata : HandoffMetadata) :
    '\n' ∉ writeMetadata metadata := by
  simp only [writeMetadata, List.mem_append, not_or, newline_not_mem_quoted,
    newline_not_mem_writeNumber, newline_not_mem_writeBool, newline_not_mem_writeOptional,
    not_false_eq_true, true_and]
  decide

theorem newline_not_mem_writeMessage (message : Message) : '\n' ∉ writeMessage message := by
  cases message with
  | verdict verdict =>
      have clean := newline_not_mem_writeField (by decide : '\n' ∉ key ",\"error\":")
        newline_not_mem_quoted verdict.error
      simp only [writeMessage, List.mem_append, not_or, newline_not_mem_writeBool, clean,
        not_false_eq_true, true_and]
      decide
  | ack ack =>
      have errorClean := newline_not_mem_writeField (by decide : '\n' ∉ key ",\"error\":")
        newline_not_mem_quoted ack.error
      have pidClean := newline_not_mem_writeField (by decide : '\n' ∉ key ",\"adopter_pid\":")
        newline_not_mem_writeNumber ack.adopterPid
      have timeClean := newline_not_mem_writeField
        (by decide : '\n' ∉ key ",\"adopter_start_time\":") newline_not_mem_writeNumber
        ack.adopterStartTime
      simp only [writeMessage, List.mem_append, not_or, newline_not_mem_writeBool, errorClean,
        pidClean, timeClean, not_false_eq_true, true_and]
      decide

theorem brace_mem_writeMessage (message : Message) : '{' ∈ writeMessage message := by
  cases message with
  | verdict verdict => exact List.mem_append_left _ (by decide)
  | ack ack => exact List.mem_append_left _ (by decide)

theorem length_writeNumber_le {bits digits : Nat} (positive : 0 < digits)
    (fits : 2 ^ bits ≤ 10 ^ digits) (value : Fin (2 ^ bits)) :
    (writeNumber value).length ≤ digits :=
  Nat.toDigits_length 10 value digits positive (lt_of_lt_of_le value.isLt fits)

theorem length_line_adopted (pid : Fin (2 ^ 32)) (startTime : Option (Fin (2 ^ 64))) :
    (messageForm.line (.ack (ackAdoptedHere pid startTime))).length ≤ maxHandoffMetadataBytes := by
  have short : (writeMessage (.ack (ackAdoptedHere pid startTime))).length ≤ 100 := by
    have pidShort := @length_writeNumber_le 32 10 (by decide) (by decide) pid
    have isPid : (key ",\"adopter_pid\":").length = 15 := rfl
    have isTime : (key ",\"adopter_start_time\":").length = 22 := rfl
    have isAdopted : (key "\x7b\"adopted\":").length = 11 := rfl
    have isBool : (writeBool true).length = 4 := rfl
    have isEnd : (key "\x7d").length = 1 := rfl
    cases startTime with
    | none =>
        simp only [writeMessage, writeField, ackAdoptedHere, List.length_append, List.length_nil,
          isPid, isAdopted, isBool, isEnd]
        omega
    | some time =>
        have timeShort := @length_writeNumber_le 64 20 (by decide) (by decide) time
        simp only [writeMessage, writeField, ackAdoptedHere, List.length_append, List.length_nil,
          isPid, isTime, isAdopted, isBool, isEnd]
        omega
  have encoded := Utf8.length_encode_le (writeMessage (.ack (ackAdoptedHere pid startTime)))
  have room : 400 ≤ maxHandoffMetadataBytes := by decide
  exact encoded.trans ((Nat.mul_le_mul_left 4 short).trans room)

/-- An array does not begin as a line does. -/
theorem array_not_prefix (message : Message) :
    ¬ Utf8.encode "[true]".toList <+: messageForm.line message := by
  rintro ⟨rest, whole⟩
  have brace : (messageForm.line message).head? = some 0x7b := by
    cases message with
    | verdict verdict => rfl
    | ack ack => rfl
  rw [← whole] at brace
  have bracket : (Utf8.encode "[true]".toList ++ rest).head? = some 0x5b := rfl
  rw [bracket] at brace
  exact absurd brace (by decide)

/-- The lines of the handoff.  An ack may also be an array, its first item being whether the
session was adopted. -/
def lineCodec : HandoffCodec where
  metadataLine := metadataForm.line
  line := messageForm.line
  readMetadata := metadataForm.readLine
  readVerdict line :=
    match messageForm.readLine line with
    | some (.verdict verdict) => some verdict
    | _ => none
  readAck line :=
    match messageForm.readLine line with
    | some (.ack ack) => some ack
    | some (.verdict _) => none
    | none => if line = Utf8.encode "[true]".toList then some ⟨true, none, none, none⟩ else none
  isPrecommitVerdict line :=
    match messageForm.readLine line with
    | some (.verdict verdict) => verdict.precommit
    | _ => false
  readMetadata_metadataLine := metadataForm.readLine_line
  newline_not_mem_metadataLine metadata :=
    newline_not_mem_encode (newline_not_mem_writeMetadata metadata)
  isBlank_metadataLine metadata :=
    @isBlank_encode '{' _ (List.mem_append_left _ (by decide)) (by decide)
  newline_not_mem_line message := newline_not_mem_encode (newline_not_mem_writeMessage message)
  isBlank_line message := isBlank_encode (brace_mem_writeMessage message) (by decide)
  readVerdict_verdict verdict := by rw [messageForm.readLine_line]
  readVerdict_ack ack := by rw [messageForm.readLine_line]
  readAck_ack ack := by rw [messageForm.readLine_line]
  isPrecommitVerdict_verdict verdict := by rw [messageForm.readLine_line]
  isPrecommitVerdict_ack ack := by rw [messageForm.readLine_line]
  readVerdict_of_cut message part begins cut := by rw [readLine_of_cut begins cut]
  readAck_of_cut message part begins cut := by
    rw [readLine_of_cut begins cut]
    refine if_neg ?_
    rintro rfl
    exact array_not_prefix message begins
  isPrecommitVerdict_of_cut message part begins cut := by rw [readLine_of_cut begins cut]
  length_line_proceed := by decide
  length_line_adopted := length_line_adopted

end Yggterm.PtyHandoff
