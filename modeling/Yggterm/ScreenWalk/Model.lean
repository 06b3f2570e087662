import Yggterm.Library.ByteSlices
import Yggterm.Library.Text
import Yggterm.Reader.Osc

/-!
# Walking a formatted screen

`walk_formatted_screen` (`yggterm-server/src/terminal.rs`) goes through the text of a screen and
says in which column each printed character lands.  It moves on by offsets in bytes, and each
slice it takes panics when an offset lies inside a character.  Columns are of 16 bits.
-/

namespace Yggterm.ScreenWalk

open Reader (esc bel)
open Text Utf8

/-- `FormattedScreenStep` -/
inductive Step where
  | control (text : List Char)
  | print (char : Char) (col width : Nat)
  deriving DecidableEq

def Step.text : Step → List Char
  | control text => text
  | print char _ _ => [char]

def saturatingAdd (first second : Nat) : Nat := min (first + second) (2 ^ 16 - 1)

def formattedScreenCellWidth (char : Char) : Nat :=
  let code := char.toNat
  let wide := (0x1100 ≤ code && code ≤ 0x115f) ||
    (0x2e80 ≤ code && code ≤ 0xa4cf) && code ≠ 0x303f ||
    (0xac00 ≤ code && code ≤ 0xd7a3) || (0xf900 ≤ code && code ≤ 0xfaff) ||
    (0xfe30 ≤ code && code ≤ 0xfe6f) || (0xff00 ≤ code && code ≤ 0xff60) ||
    (0xffe0 ≤ code && code ≤ 0xffe6) || (0x1f300 ≤ code && code ≤ 0x1f64f) ||
    (0x1f900 ≤ code && code ≤ 0x1f9ff) || (0x20000 ≤ code && code ≤ 0x3fffd)
  if wide then 2 else 1

def isAsciiAlphabetic (byte : UInt8) : Bool :=
  (0x41 ≤ byte && byte ≤ 0x5a) || (0x61 ≤ byte && byte ≤ 0x7a)

def isBel (byte : UInt8) : Bool := byte = 0x07

/-- Where a loop over the bytes behind an introducer ends. -/
def loopEnd (stops : UInt8 → Bool) (rest : List Char) : Nat :=
  2 + (((encode rest).drop 2).takeWhile fun byte => !stops byte).length

def isCsi (rest : List Char) : Bool := [esc, '['].isPrefixOf rest

def isOsc (rest : List Char) : Bool := [esc, ']'].isPrefixOf rest

/-- How many bytes the control sequence at the front has. -/
def sequenceEnd (rest : List Char) : Nat :=
  if isCsi rest then min (loopEnd isAsciiAlphabetic rest + 1) (encode rest).length
  else if isOsc rest then min (loopEnd isBel rest + 1) (encode rest).length
  else min 2 (encode rest).length

/-- `&screen_text[i + 2..j.min(screen_text.len())]` -/
def csiParams (rest : List Char) : Option (List Char) :=
  (splitBytes (min (loopEnd isAsciiAlphabetic rest) (encode rest).length) rest).bind fun front =>
    (splitBytes 2 front.1).map Prod.snd

/-- `value.parse::<u16>().ok().unwrap_or(1).max(1)` -/
def count (params : Option (List Char)) : Nat := max ((params.bind (parseUnsigned 16)).getD 1) 1

/-- The column after a CSI sequence with these parameters and this final byte. -/
def columnAfterCsi (params : List Char) (final : Option UInt8) (col : Nat) : Nat :=
  if final = some 0x48 ∨ final = some 0x66 then count (params.splitOn ';')[1]?
  else if final = some 0x43 then saturatingAdd col (count (some params))
  else if final = some 0x47 then count (some params)
  else if final = some 0x44 then max (col - count (some params)) 1
  else col

/-- The column after the control sequence at the front. -/
def columnAfter (rest : List Char) (col : Nat) : Option Nat :=
  if isCsi rest then
    (csiParams rest).map fun params =>
      columnAfterCsi params (encode rest)[loopEnd isAsciiAlphabetic rest]? col
  else some col

theorem sequenceEnd_pos {rest : List Char} (nonempty : rest ≠ []) : 0 < sequenceEnd rest := by
  have bytes : 0 < (encode rest).length := by
    obtain ⟨char, later, rfl⟩ := List.exists_cons_of_ne_nil nonempty
    rw [encode_cons, List.length_append]
    have positive := length_encodeChar_pos char
    omega
  unfold sequenceEnd
  split_ifs <;> omega

/-- Where a cell lands: in this row, or at the start of the next when it does not fit. -/
def landing (gridCols col width : Nat) : Nat :=
  if 0 < gridCols ∧ saturatingAdd col width - 1 > gridCols then 1 else col

/-- The walk over the rest of the text. -/
def walkFrom (gridCols : Nat) (rest : List Char) (col : Nat) : Option (List Step) :=
  match rest with
  | [] => some []
  | char :: later =>
      if char = esc then
        match columnAfter (char :: later) col with
        | none => none
        | some col =>
            match _ : splitBytes (sequenceEnd (char :: later)) (char :: later) with
            | none => none
            | some (sequence, after) => (walkFrom gridCols after col).map (.control sequence :: ·)
      else if char = '\n' ∨ char = '\r' then
        (walkFrom gridCols later 1).map (.control [char] :: ·)
      else
        let width := formattedScreenCellWidth char
        let col := landing gridCols col width
        (walkFrom gridCols later (saturatingAdd col width)).map (.print char col width :: ·)
termination_by rest.length
decreasing_by
  · exact length_lt_of_splitBytes ‹_› (sequenceEnd_pos (List.cons_ne_nil char later))
  · simp
  · simp

def walkFormattedScreen (screenText : List Char) (gridCols : Nat) : Option (List Step) :=
  walkFrom gridCols screenText 1

end Yggterm.ScreenWalk
