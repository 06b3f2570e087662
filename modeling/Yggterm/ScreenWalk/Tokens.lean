import Yggterm.ScreenWalk.Model

/-!
# The tokens of a screen

What the walk cuts from a text does not depend on the columns: control sequences, of which only
the last may be unfinished, and printed characters.
-/

namespace Yggterm.ScreenWalk

open Reader (esc bel)
open Text Utf8

inductive Token where
  | control (text : List Char)
  | print (char : Char)
  deriving DecidableEq

def Token.text : Token → List Char
  | control text => text
  | print char => [char]

/-- A text divided where a loop over its bytes ends. -/
structure Cut (stops : UInt8 → Bool) (front tail : List Char) : Prop where
  clean : ∀ char ∈ front, stopsAt stops char = false
  ends : ∀ char ∈ tail.head?, stopsAt stops char = true

/-- The texts that the walk gets through, with their tokens. -/
inductive Lexes : List Char → List Token → Prop
  | nil : Lexes [] []
  | csi {params tail : List Char} {tokens : List Token} (cut : Cut isAsciiAlphabetic params tail)
      (later : Lexes (tail.drop 1) tokens) :
      Lexes (esc :: '[' :: (params ++ tail))
        (.control (esc :: '[' :: (params ++ tail.take 1)) :: tokens)
  | osc {content tail : List Char} {tokens : List Token} (cut : Cut isBel content tail)
      (later : Lexes (tail.drop 1) tokens) :
      Lexes (esc :: ']' :: (content ++ tail))
        (.control (esc :: ']' :: (content ++ tail.take 1)) :: tokens)
  | pair {next : Char} {rest : List Char} {tokens : List Token} (isAscii : next.toNat < 0x80)
      (notCsi : next ≠ '[') (notOsc : next ≠ ']') (later : Lexes rest tokens) :
      Lexes (esc :: next :: rest) (.control [esc, next] :: tokens)
  | last : Lexes [esc] [.control [esc]]
  | line {char : Char} {rest : List Char} {tokens : List Token} (isLine : char = '\n' ∨ char = '\r')
      (later : Lexes rest tokens) : Lexes (char :: rest) (.control [char] :: tokens)
  | char {char : Char} {rest : List Char} {tokens : List Token} (notEsc : char ≠ esc)
      (notLine : ¬ (char = '\n' ∨ char = '\r')) (later : Lexes rest tokens) :
      Lexes (char :: rest) (.print char :: tokens)

/-- The column after a control sequence. -/
def columnOf (text : List Char) (col : Nat) : Nat :=
  if text = ['\n'] ∨ text = ['\r'] then 1 else (columnAfter text col).getD col

/-- The tokens at their columns. -/
def place (gridCols : Nat) : Nat → List Token → List Step
  | _, [] => []
  | col, .control text :: rest => .control text :: place gridCols (columnOf text col) rest
  | col, .print char :: rest =>
      let width := formattedScreenCellWidth char
      let landed := landing gridCols col width
      .print char landed width :: place gridCols (saturatingAdd landed width) rest

section Loops

variable {stops : UInt8 → Bool} {front tail : List Char} {first second : Char}

theorem takeWhile_cut (ascii : ∀ byte, 0x80 ≤ byte → stops byte = false)
    (cut : Cut stops front tail) :
    (encode (front ++ tail)).takeWhile (fun byte => !stops byte) = encode front := by
  rw [takeWhile_encode ascii]
  congr 1
  have passes : ∀ char ∈ front, (!stopsAt stops char) = true := fun char member => by
    rw [cut.clean char member, Bool.not_false]
  rw [List.takeWhile_append_of_pos passes]
  cases tail with
  | nil => simp
  | cons last after =>
      have ends := cut.ends last rfl
      simp [ends]

theorem encode_pair (firstAscii : first.toNat < 0x80) (secondAscii : second.toNat < 0x80)
    (rest : List Char) : encode (first :: second :: rest) =
      UInt8.ofNat first.toNat :: UInt8.ofNat second.toNat :: encode rest := by
  have firstByte : encodeChar first = [UInt8.ofNat first.toNat] := if_pos firstAscii
  have secondByte : encodeChar second = [UInt8.ofNat second.toNat] := if_pos secondAscii
  rw [encode_cons, encode_cons, firstByte, secondByte]
  rfl

theorem loopEnd_eq (ascii : ∀ byte, 0x80 ≤ byte → stops byte = false)
    (firstAscii : first.toNat < 0x80) (secondAscii : second.toNat < 0x80)
    (cut : Cut stops front tail) :
    loopEnd stops (first :: second :: (front ++ tail)) =
        (encode (first :: second :: front)).length := by
  rw [loopEnd, encode_pair firstAscii secondAscii, List.drop_succ_cons, List.drop_succ_cons,
    List.drop_zero, takeWhile_cut ascii cut, encode_pair firstAscii secondAscii]
  simp only [List.length_cons]
  omega

theorem isAscii_of_stopsAt {char : Char} (stop : stopsAt stops char = true) :
    char.toNat < 0x80 := by
  simp only [stopsAt, Bool.and_eq_true, decide_eq_true_eq] at stop
  exact stop.1

/-- A sequence goes to the character at which the loop ends, or to the end of the text. -/
theorem splitBytes_sequence (ascii : ∀ byte, 0x80 ≤ byte → stops byte = false)
    (firstAscii : first.toNat < 0x80) (secondAscii : second.toNat < 0x80)
    (cut : Cut stops front tail) :
    splitBytes (min (loopEnd stops (first :: second :: (front ++ tail)) + 1)
        (encode (first :: second :: (front ++ tail))).length)
        (first :: second :: (front ++ tail)) =
      some (first :: second :: (front ++ tail.take 1), tail.drop 1) := by
  rw [loopEnd_eq ascii firstAscii secondAscii cut]
  cases tail with
  | nil =>
      rw [List.append_nil, Nat.min_eq_right (Nat.le_succ _), splitBytes_encode]
      simp
  | cons last after =>
      have single : (encodeChar last).length = 1 :=
        length_encodeChar_of_ascii (isAscii_of_stopsAt (cut.ends last rfl))
      have isEnd : min ((encode (first :: second :: front)).length + 1)
          (encode (first :: second :: (front ++ last :: after))).length =
          (encode (first :: second :: (front ++ [last]))).length := by
        simp only [encode_cons, encode_append, List.length_append, single, encode_nil,
          List.length_nil]
        omega
      have whole : first :: second :: (front ++ last :: after) =
          (first :: second :: (front ++ [last])) ++ after := by simp
      rw [isEnd, whole, splitBytes_append]
      rfl

end Loops

theorem isAsciiAlphabetic_ascii (byte : UInt8) (high : 0x80 ≤ byte) :
    isAsciiAlphabetic byte = false := by
  rw [UInt8.le_iff_toNat_le] at high
  simp only [isAsciiAlphabetic, UInt8.le_iff_toNat_le, Bool.or_eq_false_iff,
    Bool.and_eq_false_iff, decide_eq_false_iff_not, Nat.not_le]
  simp only [UInt8.reduceToNat] at *
  omega

theorem isBel_ascii (byte : UInt8) (high : 0x80 ≤ byte) : isBel byte = false := by
  rw [isBel, decide_eq_false_iff_not]
  rintro rfl
  exact absurd high (by decide)

theorem csiParams_eq {params tail : List Char} (cut : Cut isAsciiAlphabetic params tail) :
    csiParams (esc :: '[' :: (params ++ tail)) = some params := by
  have atEnd : min (loopEnd isAsciiAlphabetic (esc :: '[' :: (params ++ tail)))
      (encode (esc :: '[' :: (params ++ tail))).length =
          (encode (esc :: '[' :: params)).length := by
    rw [loopEnd_eq isAsciiAlphabetic_ascii (by decide) (by decide) cut]
    simp only [encode_cons, encode_append, List.length_append]
    omega
  have whole : esc :: '[' :: (params ++ tail) = (esc :: '[' :: params) ++ tail := rfl
  have introducer : splitBytes 2 (esc :: '[' :: params) = some ([esc, '['], params) :=
    splitBytes_append [esc, '['] params
  rw [csiParams, atEnd, whole, splitBytes_append, Option.bind_some, introducer]
  rfl

theorem getElem?_loopEnd {params tail : List Char} (cut : Cut isAsciiAlphabetic params tail) :
    (encode (esc :: '[' :: (params ++ tail)))[loopEnd isAsciiAlphabetic
      (esc :: '[' :: (params ++ tail))]? = tail.head?.map fun char => UInt8.ofNat char.toNat := by
  have whole : esc :: '[' :: (params ++ tail) = (esc :: '[' :: params) ++ tail := rfl
  rw [loopEnd_eq isAsciiAlphabetic_ascii (by decide) (by decide) cut, whole, encode_append,
    List.getElem?_append_right (Nat.le_refl _), Nat.sub_self]
  cases tail with
  | nil => rfl
  | cons last after =>
      have isByte : encodeChar last = [UInt8.ofNat last.toNat] :=
        if_pos (isAscii_of_stopsAt (cut.ends last rfl))
      rw [encode_cons, isByte]
      rfl

theorem columnAfter_csi {params tail : List Char} (cut : Cut isAsciiAlphabetic params tail)
    (col : Nat) : columnAfter (esc :: '[' :: (params ++ tail)) col =
      some (columnAfterCsi params (tail.head?.map fun char => UInt8.ofNat char.toNat) col) := by
  have isIntroduced : isCsi (esc :: '[' :: (params ++ tail)) = true := by simp [isCsi]
  rw [columnAfter, if_pos isIntroduced, csiParams_eq cut, getElem?_loopEnd cut]
  rfl

theorem Cut.take {stops : UInt8 → Bool} {front tail : List Char} (cut : Cut stops front tail) :
    Cut stops front (tail.take 1) where
  clean := cut.clean
  ends := by
    cases tail with
    | nil => simp
    | cons last after => exact cut.ends

/-- The column after a sequence is read from the sequence alone. -/
theorem columnAfter_sequence {params tail : List Char} (cut : Cut isAsciiAlphabetic params tail)
    (col : Nat) : columnAfter (esc :: '[' :: (params ++ tail)) col =
      some (columnOf (esc :: '[' :: (params ++ tail.take 1)) col) := by
  have notLine : ∀ char, char = '\n' ∨ char = '\r' →
      esc :: '[' :: (params ++ tail.take 1) ≠ [char] := fun char _ => by simp
  rw [columnOf, if_neg (not_or_intro (notLine _ (.inl rfl)) (notLine _ (.inr rfl))),
    columnAfter_csi cut, columnAfter_csi cut.take]
  cases tail <;> rfl

theorem isCsi_esc (next : Char) (rest : List Char) :
    isCsi (esc :: next :: rest) = decide (next = '[') := by
  simp [isCsi, List.isPrefixOf, beq_eq_decide, eq_comm (a := '[')]

theorem isOsc_esc (next : Char) (rest : List Char) :
    isOsc (esc :: next :: rest) = decide (next = ']') := by
  simp [isOsc, List.isPrefixOf, beq_eq_decide, eq_comm (a := ']')]

theorem walkFrom_sequence {later sequence after : List Char} {col next : Nat} (gridCols : Nat)
    (column : columnAfter (esc :: later) col = some next)
    (splits : splitBytes (sequenceEnd (esc :: later)) (esc :: later) = some (sequence, after)) :
    walkFrom gridCols (esc :: later) col =
      (walkFrom gridCols after next).map (.control sequence :: ·) := by
  rw [walkFrom, if_pos rfl, column]
  dsimp only
  split
  · next missing =>
      rw [splits] at missing
      cases missing
  · next found =>
      rw [splits] at found
      cases found
      rfl

theorem walkFrom_panics {later : List Char} {col : Nat} (gridCols : Nat)
    (panics : splitBytes (sequenceEnd (esc :: later)) (esc :: later) = none) :
    walkFrom gridCols (esc :: later) col = none := by
  rw [walkFrom, if_pos rfl]
  cases columnAfter (esc :: later) col with
  | none => rfl
  | some next =>
      dsimp only
      split
      · rfl
      · next found =>
          rw [panics] at found
          cases found

theorem columnAfter_of_not_csi {rest : List Char} (notCsi : isCsi rest = false) (col : Nat) :
    columnAfter rest col = some col := by
  rw [columnAfter, if_neg (by simp [notCsi])]

theorem columnOf_of_not_csi {rest : List Char} (notCsi : isCsi rest = false)
    (begins : rest.head? = some esc) (col : Nat) : columnOf rest col = col := by
  have notLine : ¬ (rest = ['\n'] ∨ rest = ['\r']) := by
    rintro (rfl | rfl) <;> exact absurd begins (by decide)
  rw [columnOf, if_neg notLine, columnAfter_of_not_csi notCsi, Option.getD_some]

theorem walkFrom_csi {params tail : List Char} (cut : Cut isAsciiAlphabetic params tail)
    (gridCols col : Nat) : walkFrom gridCols (esc :: '[' :: (params ++ tail)) col =
      (walkFrom gridCols (tail.drop 1)
        (columnOf (esc :: '[' :: (params ++ tail.take 1)) col)).map
          (.control (esc :: '[' :: (params ++ tail.take 1)) :: ·) := by
  refine walkFrom_sequence gridCols (columnAfter_sequence cut col) ?_
  rw [sequenceEnd, if_pos (by simp [isCsi_esc])]
  exact splitBytes_sequence isAsciiAlphabetic_ascii (by decide) (by decide) cut

theorem walkFrom_osc {content tail : List Char} (cut : Cut isBel content tail)
    (gridCols col : Nat) : walkFrom gridCols (esc :: ']' :: (content ++ tail)) col =
      (walkFrom gridCols (tail.drop 1) col).map
        (.control (esc :: ']' :: (content ++ tail.take 1)) :: ·) := by
  refine walkFrom_sequence gridCols (columnAfter_of_not_csi (by simp [isCsi_esc]) col) ?_
  rw [sequenceEnd, if_neg (by simp [isCsi_esc]), if_pos (by simp [isOsc_esc])]
  exact splitBytes_sequence isBel_ascii (by decide) (by decide) cut

theorem sequenceEnd_pair {next : Char} (notCsi : next ≠ '[') (notOsc : next ≠ ']')
    (rest : List Char) : sequenceEnd (esc :: next :: rest) = 2 := by
  have bytes : (encode (esc :: next :: rest)).length =
      1 + ((encodeChar next).length + (encode rest).length) := by
    rw [encode_cons, encode_cons, List.length_append, List.length_append,
      length_encodeChar_of_ascii (by decide)]
  have positive := length_encodeChar_pos next
  rw [sequenceEnd, if_neg (by simp [isCsi_esc, notCsi]),
    if_neg (by simp [isOsc_esc, notOsc]), bytes]
  omega

theorem walkFrom_pair {next : Char} (isAscii : next.toNat < 0x80) (notCsi : next ≠ '[')
    (notOsc : next ≠ ']') (rest : List Char) (gridCols col : Nat) :
    walkFrom gridCols (esc :: next :: rest) col =
      (walkFrom gridCols rest col).map (.control [esc, next] :: ·) := by
  refine walkFrom_sequence gridCols (columnAfter_of_not_csi (by simp [isCsi_esc, notCsi]) col) ?_
  have two : (encode [esc, next]).length = 2 := by
    rw [encode_pair (by decide) isAscii]
    rfl
  rw [sequenceEnd_pair notCsi notOsc, ← two]
  exact splitBytes_append [esc, next] rest

/-- A character beyond ASCII does not stand behind an escape. -/
theorem walkFrom_pair_eq_none {next : Char} (notAscii : ¬ next.toNat < 0x80) (rest : List Char)
    (gridCols col : Nat) : walkFrom gridCols (esc :: next :: rest) col = none := by
  have notCsi : next ≠ '[' := by
    rintro rfl
    exact notAscii (by decide)
  have notOsc : next ≠ ']' := by
    rintro rfl
    exact notAscii (by decide)
  refine walkFrom_panics gridCols ?_
  have one : (encodeChar esc).length = 1 := length_encodeChar_of_ascii (by decide)
  rw [sequenceEnd_pair notCsi notOsc, splitBytes_cons _ (by omega), one,
    splitBytes_one_eq_none notAscii]
  rfl

theorem walkFrom_line {char : Char} (isLine : char = '\n' ∨ char = '\r') (rest : List Char)
    (gridCols col : Nat) : walkFrom gridCols (char :: rest) col =
      (walkFrom gridCols rest 1).map (.control [char] :: ·) := by
  have notEsc : char ≠ esc := by
    rintro rfl
    exact absurd isLine (by decide)
  rw [walkFrom, if_neg notEsc, if_pos isLine]

/-- The walk through a text places its tokens. -/
theorem Lexes.walkFrom_eq {text : List Char} {tokens : List Token} (lexes : Lexes text tokens)
    (gridCols col : Nat) : walkFrom gridCols text col = some (place gridCols col tokens) := by
  have other : ∀ next rest, next ≠ '[' → ∀ col, columnOf (esc :: next :: rest) col = col :=
    fun next rest notCsi => columnOf_of_not_csi (by simp [isCsi_esc, notCsi]) rfl
  induction lexes generalizing col with
  | nil => simp [walkFrom, place]
  | csi cut later inductionHypothesis =>
      rw [walkFrom_csi cut, inductionHypothesis]
      rfl
  | osc cut later inductionHypothesis =>
      rw [walkFrom_osc cut, inductionHypothesis, place, other _ _ (by decide)]
      rfl
  | pair isAscii notCsi notOsc later inductionHypothesis =>
      rw [walkFrom_pair isAscii notCsi notOsc, inductionHypothesis, place, other _ _ notCsi]
      rfl
  | last =>
      have splits : splitBytes (sequenceEnd [esc]) [esc] = some ([esc], []) := by decide
      rw [walkFrom_sequence gridCols (columnAfter_of_not_csi (by decide) col) splits, walkFrom]
      rfl
  | @line char rest tokens isLine later inductionHypothesis =>
      have isControl : columnOf [char] col = 1 := by
        rw [columnOf, if_pos]
        simpa using isLine
      rw [walkFrom_line isLine, inductionHypothesis, place, isControl]
      rfl
  | char notEsc notLine later inductionHypothesis =>
      rw [walkFrom, if_neg notEsc, if_neg notLine]
      dsimp only
      rw [inductionHypothesis]
      rfl

theorem flatMap_text_place (gridCols col : Nat) (tokens : List Token) :
    (place gridCols col tokens).flatMap Step.text = tokens.flatMap Token.text := by
  induction tokens generalizing col with
  | nil => rfl
  | cons token rest inductionHypothesis =>
      cases token <;> simp [place, Step.text, Token.text, inductionHypothesis]

theorem Lexes.flatMap_text {text : List Char} {tokens : List Token} (lexes : Lexes text tokens) :
    tokens.flatMap Token.text = text := by
  induction lexes with
  | nil => rfl
  | csi _ _ inductionHypothesis =>
      simp only [List.flatMap_cons, Token.text, inductionHypothesis, List.cons_append,
        List.append_assoc, List.take_append_drop]
  | osc _ _ inductionHypothesis =>
      simp only [List.flatMap_cons, Token.text, inductionHypothesis, List.cons_append,
        List.append_assoc, List.take_append_drop]
  | pair _ _ _ _ inductionHypothesis => simp [Token.text, inductionHypothesis]
  | last => rfl
  | line _ _ inductionHypothesis => simp [Token.text, inductionHypothesis]
  | char _ _ _ inductionHypothesis => simp [Token.text, inductionHypothesis]

end Yggterm.ScreenWalk
