import Mathlib.Data.List.Nodup
import Yggterm.Library.Ascii
import Yggterm.Library.Lines
import Yggterm.Library.Numerals
import Yggterm.Library.Search

/-!
# Cells of a click grid

A code names a row with letters, where `AA` follows `Z`, then a column that counts from one, and
perhaps one of the nine parts of the cell.
-/

namespace Yggterm.ClickGrid

open Text

/-- Columns and rows; there is at least one of each. -/
structure GridGeometry where
  cols : Nat
  rows : Nat
  cols_pos : 0 < cols
  rows_pos : 0 < rows
  cols_lt : cols < 2 ^ 32
  rows_lt : rows < 2 ^ 32

/-- Row and column count from zero. -/
structure ParsedCell where
  row : Nat
  col : Nat
  sub : Option Nat
  deriving DecidableEq

def refineDivisions : Nat := 3

/-! ## Codes -/

def rowLabelFrom (i : Nat) (out : List Char) : List Char :=
  if i = 0 then out
  else rowLabelFrom ((i - 1) / 26) (Char.ofNat ('A'.toNat + (i - 1) % 26) :: out)
termination_by i
decreasing_by
  have smaller := Nat.div_le_self (i - 1) 26
  omega

def rowLabel (index : Nat) : List Char := rowLabelFrom (index + 1) []

def cellCode (row col : Nat) : List Char := rowLabel row ++ Nat.toDigits 10 (col + 1)

def subCode (parentCode : List Char) (sub : Nat) : List Char :=
  parentCode ++ '.' :: Nat.toDigits 10 sub

/-- The codes of `cells`, row after row. -/
def cellCodes (geometry : GridGeometry) : List (List Char) :=
  (List.range geometry.rows).flatMap fun row =>
    (List.range geometry.cols).map fun col => cellCode row col

/-! ## Parsing -/

/-- What does not fit a word is refused, as by `checked_mul` and `checked_add`. -/
def checked (bits value : Nat) : Option Nat := if value < 2 ^ bits then some value else none

def checkedPred (value : Nat) : Option Nat := if value = 0 then none else some (value - 1)

def parseSub (tail : List Char) : Option Nat :=
  (parseUnsigned 8 tail).bind fun value =>
    if 1 ≤ value ∧ value ≤ refineDivisions * refineDivisions then some value else none

/-- One more letter of a row. -/
def readLetter (row : Nat) (letter : Char) : Option Nat :=
  (checked 64 (row * 26)).bind fun row =>
    checked 64 (row + (letter.toNat - 'A'.toNat + 1))

def readRow (letters : List Char) : Option Nat :=
  (letters.foldlM readLetter 0).bind fun row => (checkedPred row).bind (checked 32)

def readCol (digits : List Char) : Option Nat := (parseUnsigned 32 digits).bind checkedPred

/-- Letters up to the first digit, and only digits from there on. -/
def parseHead (geometry : GridGeometry) (head : List Char) : Option (Nat × Nat) :=
  let letters := head.takeWhile fun char => !char.isDigit
  let digits := head.dropWhile fun char => !char.isDigit
  if letters = [] ∨ ¬ letters.all Char.isUpper then none
  else if digits = [] ∨ ¬ digits.all Char.isDigit then none
  else
    (readRow letters).bind fun row =>
      (readCol digits).bind fun col =>
        if row < geometry.rows ∧ col < geometry.cols then some (row, col) else none

def parseCell (geometry : GridGeometry) (code : List Char) : Option ParsedCell :=
  let code := (trim code).map Char.toUpper
  match Search.findText ['.'] code with
  | some (head, tail) =>
      (parseSub tail).bind fun sub =>
        (parseHead geometry head).map fun cell => ⟨cell.1, cell.2, some sub⟩
  | none => (parseHead geometry code).map fun cell => ⟨cell.1, cell.2, none⟩

/-! ## Codes and cells stand for each other

The label of a row is its number as a bijective numeral of base 26.  What is parsed spells a cell
of the grid, and nothing else is parsed. -/

/-! ### Letters -/

def letter (digit : Nat) : Char := Char.ofNat ('A'.toNat + digit)

def offset (char : Char) : Nat := char.toNat - 'A'.toNat

theorem letter_eq {digit : Nat} (small : digit < 26) : (letter digit).isUpper = true ∧
    (letter digit).isDigit = false ∧ isWhitespace (letter digit) = false ∧
      (letter digit).toUpper = letter digit ∧ offset (letter digit) = digit := by
  have all : ∀ digit : Fin 26, (letter digit).isUpper = true ∧ (letter digit).isDigit = false ∧
      isWhitespace (letter digit) = false ∧ (letter digit).toUpper = letter digit ∧
        offset (letter digit) = digit := by
    decide
  exact all ⟨digit, small⟩

theorem letter_offset {char : Char} (upper : char.isUpper = true) :
    offset char < 26 ∧ letter (offset char) = char := by
  have alphanum : char.isAlphanum = true := by
    delta Char.isAlphanum Char.isAlpha
    simp [upper]
  exact Ascii.of_forall_ofNat
    (fun char => char.isUpper = true → offset char < 26 ∧ letter (offset char) = char)
    (by decide) (Ascii.toNat_lt_of_isAlphanum alphanum) upper

theorem rowLabelFrom_eq (i : Nat) (out : List Char) :
    rowLabelFrom i out = (Numerals.write 26 i).map letter ++ out := by
  induction i using Nat.strongRecOn generalizing out with
  | ind i inductionHypothesis =>
      rw [rowLabelFrom, Numerals.write]
      split
      · rfl
      · have smaller := Nat.div_le_self (i - 1) 26
        rw [inductionHypothesis ((i - 1) / 26) (by omega), List.map_append, List.append_assoc]
        rfl

theorem rowLabel_eq (index : Nat) :
    rowLabel index = (Numerals.write 26 (index + 1)).map letter := by
  rw [rowLabel, rowLabelFrom_eq, List.append_nil]

theorem exists_of_mem_rowLabel {index : Nat} {char : Char} (member : char ∈ rowLabel index) :
    ∃ digit < 26, char = letter digit := by
  rw [rowLabel_eq] at member
  obtain ⟨digit, written, rfl⟩ := List.mem_map.mp member
  exact ⟨digit, Numerals.lt_of_mem_write (by decide) written, rfl⟩

theorem map_offset_rowLabel (index : Nat) :
    (rowLabel index).map offset = Numerals.write 26 (index + 1) := by
  rw [rowLabel_eq, List.map_map]
  refine (List.map_congr_left fun digit written => ?_).trans (List.map_id _)
  exact (letter_eq (Numerals.lt_of_mem_write (by decide) written)).2.2.2.2

theorem rowLabel_ne_nil (index : Nat) : rowLabel index ≠ [] := by
  rw [rowLabel_eq, Numerals.write, if_neg (Nat.succ_ne_zero _)]
  simp

theorem all_isUpper_rowLabel (index : Nat) : (rowLabel index).all Char.isUpper = true := by
  refine List.all_eq_true.mpr fun char member => ?_
  obtain ⟨digit, small, rfl⟩ := exists_of_mem_rowLabel member
  exact (letter_eq small).1

theorem checked_eq_some_iff {bits value other : Nat} :
    checked bits value = some other ↔ value = other ∧ value < 2 ^ bits := by
  rw [checked, Option.ite_none_right_eq_some, Option.some.injEq, and_comm]

/-- The checks at every letter come to one check of the number. -/
theorem foldlM_readLetter (letters : List Char) :
    letters.foldlM readLetter 0 = checked 64 (Numerals.value 26 (letters.map offset)) := by
  induction letters using List.reverseRecOn with
  | nil => rfl
  | append_singleton front last inductionHypothesis =>
      have one : ∀ row, [last].foldlM readLetter row = readLetter row last := fun row => by simp
      rw [List.foldlM_append, inductionHypothesis, List.map_append, List.map_singleton,
        Numerals.value_append_singleton]
      simp only [one]
      apply Option.ext
      intro row
      constructor
      · intro read
        obtain ⟨before, isBefore, read⟩ := Option.bind_eq_some_iff.mp read
        obtain ⟨shifted, isShifted, isRow⟩ := Option.bind_eq_some_iff.mp read
        rw [← ((checked_eq_some_iff).mp isShifted).1,
          ← ((checked_eq_some_iff).mp isBefore).1] at isRow
        exact isRow
      · intro isRow
        obtain ⟨rfl, small⟩ := (checked_eq_some_iff).mp isRow
        refine Option.bind_eq_some_iff.mpr ⟨_, (checked_eq_some_iff).mpr ⟨rfl, by omega⟩, ?_⟩
        exact Option.bind_eq_some_iff.mpr ⟨_, (checked_eq_some_iff).mpr ⟨rfl, by omega⟩, isRow⟩

theorem readRow_eq_some_iff {letters : List Char} {row : Nat}
    (upper : letters.all Char.isUpper = true) :
    readRow letters = some row ↔ letters = rowLabel row ∧ row < 2 ^ 32 := by
  have isUpper := List.all_eq_true.mp upper
  rw [readRow, foldlM_readLetter]
  constructor
  · intro read
    obtain ⟨value, isValue, read⟩ := Option.bind_eq_some_iff.mp read
    obtain ⟨before, isBefore, isRow⟩ := Option.bind_eq_some_iff.mp read
    obtain ⟨rfl, small⟩ := (checked_eq_some_iff).mp isRow
    rw [checkedPred, Option.ite_none_left_eq_some, Option.some.injEq] at isBefore
    have isNumber : before + 1 = Numerals.value 26 (letters.map offset) := by
      rw [((checked_eq_some_iff).mp isValue).1]
      omega
    refine ⟨?_, small⟩
    rw [rowLabel_eq, isNumber, Numerals.write_value, List.map_map]
    · refine ((List.map_congr_left fun char member => ?_).trans (List.map_id letters)).symm
      exact (letter_offset (isUpper char member)).2
    · intro digit member
      obtain ⟨char, isChar, rfl⟩ := List.mem_map.mp member
      exact (letter_offset (isUpper char isChar)).1
  · rintro ⟨rfl, small⟩
    have fits : row + 1 < 2 ^ 64 := by omega
    rw [map_offset_rowLabel, Numerals.value_write, checked, if_pos fits, Option.bind_some,
      checkedPred, if_neg (Nat.succ_ne_zero _), Option.bind_some, Nat.add_sub_cancel]
    exact (checked_eq_some_iff).mpr ⟨rfl, small⟩

/-! ### Codes -/

/-- A code in which the digits may have zeros before them. -/
def SpellsHead (head : List Char) (row col : Nat) : Prop :=
  ∃ zeros, head = rowLabel row ++ (List.replicate zeros '0' ++ Nat.toDigits 10 (col + 1))

theorem isDigit_zeros (zeros value : Nat) :
    ∀ char ∈ List.replicate zeros '0' ++ Nat.toDigits 10 value, char.isDigit = true := by
  intro char member
  rcases List.mem_append.mp member with isZero | isDigit
  · rw [List.eq_of_mem_replicate isZero]
    decide
  · exact Nat.isDigit_of_mem_toDigits (by decide) (by decide) isDigit

/-- The digits begin where the label ends. -/
theorem split_rowLabel_append (row : Nat) {digits : List Char}
    (all : ∀ char ∈ digits, char.isDigit = true) :
    (rowLabel row ++ digits).takeWhile (fun char => !char.isDigit) = rowLabel row ∧
      (rowLabel row ++ digits).dropWhile (fun char => !char.isDigit) = digits := by
  have noDigit : ∀ char ∈ rowLabel row, (!char.isDigit) = true := by
    intro char member
    obtain ⟨digit, small, rfl⟩ := exists_of_mem_rowLabel member
    rw [(letter_eq small).2.1]
    rfl
  rw [List.takeWhile_append_of_pos noDigit, List.dropWhile_append_of_pos noDigit]
  cases digits with
  | nil => simp
  | cons first rest => simp [all first List.mem_cons_self]

theorem readCol_zeros (zeros col : Nat) :
    readCol (List.replicate zeros '0' ++ Nat.toDigits 10 (col + 1)) =
      if col + 1 < 2 ^ 32 then some col else none := by
  rw [readCol, parseUnsigned_zeros]
  split
  · rfl
  · rfl

theorem parseHead_eq_some_iff {geometry : GridGeometry} {head : List Char} {row col : Nat} :
    parseHead geometry head = some (row, col) ↔
      SpellsHead head row col ∧ row < geometry.rows ∧ col < geometry.cols := by
  constructor
  · intro parsed
    rw [parseHead] at parsed
    split at parsed
    · cases parsed
    · next isLabel =>
        split at parsed
        · cases parsed
        · next isDigits =>
            obtain ⟨nonempty, all⟩ := not_or.mp isDigits
            obtain ⟨row', isRow, parsed⟩ := Option.bind_eq_some_iff.mp parsed
            obtain ⟨col', isCol, parsed⟩ := Option.bind_eq_some_iff.mp parsed
            rw [Option.ite_none_right_eq_some, Option.some.injEq, Prod.mk.injEq] at parsed
            obtain ⟨inside, rfl, rfl⟩ := parsed
            have isRowLabel := ((readRow_eq_some_iff (not_not.mp (not_or.mp isLabel).2)).mp isRow).1
            obtain ⟨number, isNumber, isCol⟩ := Option.bind_eq_some_iff.mp isCol
            rw [checkedPred, Option.ite_none_left_eq_some, Option.some.injEq] at isCol
            have isSuccessor : number = col' + 1 := by omega
            obtain ⟨sign, zeros, isSign, spelled⟩ := exists_zeros_of_parseUnsigned isNumber
            have unsigned : sign = [] := by
              refine isSign.resolve_right fun plus => ?_
              have member : '+' ∈ head.dropWhile fun char => !char.isDigit := by
                rw [spelled, plus]
                exact List.mem_append_left _ (List.mem_singleton_self _)
              exact absurd (List.all_eq_true.mp (not_not.mp all) _ member) (by decide)
            refine ⟨⟨zeros, ?_⟩, inside⟩
            rw [unsigned, isSuccessor] at spelled
            rw [← isRowLabel]
            exact (List.takeWhile_append_dropWhile).symm.trans (congrArg _ spelled)
  · rintro ⟨⟨zeros, rfl⟩, rowInside, colInside⟩
    have rowFits := geometry.rows_lt
    have colFits := geometry.cols_lt
    have digits := isDigit_zeros zeros (col + 1)
    obtain ⟨isLabel, isDigits⟩ := split_rowLabel_append row digits
    have nonempty : List.replicate zeros '0' ++ Nat.toDigits 10 (col + 1) ≠ [] :=
      List.append_ne_nil_of_right_ne_nil _ Nat.toDigits_ne_nil
    have isRow : readRow (rowLabel row) = some row :=
      (readRow_eq_some_iff (all_isUpper_rowLabel row)).mpr ⟨rfl, by omega⟩
    rw [parseHead, isLabel, isDigits,
      if_neg (not_or.mpr ⟨rowLabel_ne_nil row, not_not.mpr (all_isUpper_rowLabel row)⟩),
      if_neg (not_or.mpr ⟨nonempty, not_not.mpr (List.all_eq_true.mpr digits)⟩), isRow,
      Option.bind_some, readCol_zeros, if_pos (by omega), Option.bind_some,
      if_pos ⟨rowInside, colInside⟩]

/-- One of the nine parts; its number may have zeros and a `+` before it. -/
def SpellsSub (tail : List Char) (sub : Nat) : Prop :=
  (1 ≤ sub ∧ sub ≤ 9) ∧ ∃ sign zeros, (sign = [] ∨ sign = ['+']) ∧
    tail = sign ++ (List.replicate zeros '0' ++ Nat.toDigits 10 sub)

theorem parseUnsigned_sign {bits : Nat} {sign digits : List Char}
    (isSign : sign = [] ∨ sign = ['+']) (all : ∀ char ∈ digits, char.isDigit = true) :
    parseUnsigned bits (sign ++ digits) = parseUnsigned bits digits := by
  have noPlus : digits.head? ≠ some '+' := by
    intro plus
    exact absurd (all '+' (List.mem_of_mem_head? plus)) (by decide)
  rcases isSign with rfl | rfl
  · rfl
  · rw [parseUnsigned, parseUnsigned, if_neg noPlus]
    rfl

theorem parseSub_eq_some_iff {tail : List Char} {sub : Nat} :
    parseSub tail = some sub ↔ SpellsSub tail sub := by
  constructor
  · intro parsed
    obtain ⟨value, isValue, parsed⟩ := Option.bind_eq_some_iff.mp parsed
    rw [Option.ite_none_right_eq_some, Option.some.injEq] at parsed
    obtain ⟨inside, rfl⟩ := parsed
    exact ⟨inside, exists_zeros_of_parseUnsigned isValue⟩
  · rintro ⟨inside, sign, zeros, isSign, rfl⟩
    have fits : sub < 2 ^ 8 := by omega
    rw [parseSub, parseUnsigned_sign isSign (isDigit_zeros zeros sub),
      parseUnsigned_zeros, if_pos fits, Option.bind_some]
    exact if_pos inside

/-- What a code spells, once it is trimmed and in capitals. -/
def Spells (text : List Char) (cell : ParsedCell) : Prop :=
  match cell.sub with
  | none => SpellsHead text cell.row cell.col
  | some sub => ∃ head tail, text = head ++ '.' :: tail ∧ SpellsHead head cell.row cell.col ∧
      SpellsSub tail sub

theorem toUpper_of_isDigit {char : Char} (digit : char.isDigit = true) : char.toUpper = char := by
  have alphanum : char.isAlphanum = true := by
    delta Char.isAlphanum
    simp [digit]
  exact Ascii.of_forall_ofNat (fun char => char.isDigit = true → char.toUpper = char) (by decide)
    (Ascii.toNat_lt_of_isAlphanum alphanum) digit

/-- A character that neither trimming nor capitals change. -/
def Stable (char : Char) : Prop := isWhitespace char = false ∧ char.toUpper = char

theorem SpellsHead.stable {head : List Char} {row col : Nat} (spells : SpellsHead head row col)
    {char : Char} (member : char ∈ head) : char ≠ '.' ∧ Stable char := by
  obtain ⟨zeros, rfl⟩ := spells
  rcases List.mem_append.mp member with inLabel | inDigits
  · obtain ⟨digit, small, rfl⟩ := exists_of_mem_rowLabel inLabel
    obtain ⟨upper, _, solid, stays, _⟩ := letter_eq small
    refine ⟨fun isDot => ?_, solid, stays⟩
    rw [isDot] at upper
    exact absurd upper (by decide)
  · have digit := isDigit_zeros zeros (col + 1) char inDigits
    refine ⟨fun isDot => ?_, isWhitespace_of_isDigit digit, toUpper_of_isDigit digit⟩
    rw [isDot] at digit
    exact absurd digit (by decide)

theorem parseCell_eq_some_iff {geometry : GridGeometry} {code : List Char} {cell : ParsedCell} :
    parseCell geometry code = some cell ↔ Spells ((trim code).map Char.toUpper) cell ∧
      cell.row < geometry.rows ∧ cell.col < geometry.cols := by
  obtain ⟨row, col, sub⟩ := cell
  rw [parseCell]
  dsimp only
  generalize (trim code).map Char.toUpper = text
  constructor
  · intro parsed
    split at parsed
    · next head tail found =>
        obtain ⟨sub', isSub, parsed⟩ := Option.bind_eq_some_iff.mp parsed
        obtain ⟨⟨row', col'⟩, isHead, isCell⟩ := Option.map_eq_some_iff.mp parsed
        cases isCell
        obtain ⟨spells, inside⟩ := (parseHead_eq_some_iff).mp isHead
        exact ⟨⟨head, tail, Search.findText_eq found, spells, (parseSub_eq_some_iff).mp isSub⟩,
          inside⟩
    · obtain ⟨⟨row', col'⟩, isHead, isCell⟩ := Option.map_eq_some_iff.mp parsed
      cases isCell
      exact (parseHead_eq_some_iff).mp isHead
  · rintro ⟨spells, inside⟩
    cases sub with
    | none =>
        have head : SpellsHead text row col := spells
        have noDot : Search.findText ['.'] text = none :=
          Search.findText_eq_none_iff.mpr fun isInfix => by
            exact (head.stable (isInfix.subset (List.mem_singleton_self _))).1 rfl
        rw [noDot]
        dsimp only
        rw [(parseHead_eq_some_iff).mpr ⟨head, inside⟩]
        rfl
    | some sub =>
        obtain ⟨head, tail, rfl, spellsHead, spellsSub⟩ := spells
        have noDot : '.' ∉ head := fun member => (spellsHead.stable member).1 rfl
        have found : Search.findText ['.'] (head ++ '.' :: tail) = some (head, tail) :=
          Search.findText_singleton noDot tail
        rw [found]
        dsimp only
        rw [(parseSub_eq_some_iff).mpr spellsSub, Option.bind_some,
          (parseHead_eq_some_iff).mpr ⟨spellsHead, inside⟩]
        rfl

/-! ### The codes of the grid -/

theorem normalize_eq_self {text : List Char} (stable : ∀ char ∈ text, Stable char) :
    (trim text).map Char.toUpper = text := by
  rw [trim_of_forall_not_isWhitespace fun char member => (stable char member).1]
  exact (List.map_congr_left fun char member => (stable char member).2).trans (List.map_id text)

theorem spellsHead_cellCode (row col : Nat) : SpellsHead (cellCode row col) row col := ⟨0, rfl⟩

theorem normalize_cellCode (row col : Nat) :
    (trim (cellCode row col)).map Char.toUpper = cellCode row col :=
  normalize_eq_self fun _ member => ((spellsHead_cellCode row col).stable member).2

theorem normalize_subCode (row col sub : Nat) :
    (trim (subCode (cellCode row col) sub)).map Char.toUpper = subCode (cellCode row col) sub := by
  refine normalize_eq_self fun char member => ?_
  rcases List.mem_append.mp member with inCell | inTail
  · exact ((spellsHead_cellCode row col).stable inCell).2
  · rcases List.mem_cons.mp inTail with rfl | inDigits
    · exact ⟨by decide, by decide⟩
    · have digit := Nat.isDigit_of_mem_toDigits (by decide) (by decide) inDigits
      exact ⟨isWhitespace_of_isDigit digit, toUpper_of_isDigit digit⟩

theorem SpellsHead.unique {head : List Char} {row col row' col' : Nat}
    (spells : SpellsHead head row col) (spells' : SpellsHead head row' col') :
    row = row' ∧ col = col' := by
  obtain ⟨zeros, isHead⟩ := spells
  obtain ⟨zeros', isHead'⟩ := spells'
  obtain ⟨isLabel, isDigits⟩ := split_rowLabel_append row (isDigit_zeros zeros (col + 1))
  obtain ⟨isLabel', isDigits'⟩ := split_rowLabel_append row' (isDigit_zeros zeros' (col' + 1))
  rw [← isHead] at isLabel isDigits
  rw [← isHead'] at isLabel' isDigits'
  have sameLabel : rowLabel row = rowLabel row' := isLabel.symm.trans isLabel'
  have sameRow := congrArg (List.map offset) sameLabel
  rw [map_offset_rowLabel, map_offset_rowLabel] at sameRow
  have sameDigits := congrArg (parseUnsigned (col + col' + 2)) (isDigits.symm.trans isDigits')
  have fits : col + col' + 2 < 2 ^ (col + col' + 2) := Nat.lt_two_pow_self
  rw [parseUnsigned_zeros, parseUnsigned_zeros, if_pos (by omega), if_pos (by omega)] at sameDigits
  exact ⟨Nat.succ.inj (Numerals.write_injective 26 sameRow),
    Nat.succ.inj (Option.some.inj sameDigits)⟩

/-- Codes and cells stand for each other. -/
structure CodesNameCells (geometry : GridGeometry) : Prop where
  decodes : ∀ row < geometry.rows, ∀ col < geometry.cols,
    parseCell geometry (cellCode row col) = some ⟨row, col, none⟩ ∧
      ∀ sub, 1 ≤ sub → sub ≤ refineDivisions * refineDivisions →
        parseCell geometry (subCode (cellCode row col) sub) = some ⟨row, col, some sub⟩
  distinct : (cellCodes geometry).Nodup
  inside : ∀ code cell, parseCell geometry code = some cell →
    cell.row < geometry.rows ∧ cell.col < geometry.cols ∧ Spells ((trim code).map Char.toUpper) cell
  outside : ∀ row col, ¬ (row < geometry.rows ∧ col < geometry.cols) →
    parseCell geometry (cellCode row col) = none

theorem nodup_cellCodes (geometry : GridGeometry) : (cellCodes geometry).Nodup := by
  have sameCell : ∀ {row col row' col' : Nat}, cellCode row col = cellCode row' col' →
      row = row' ∧ col = col' := by
    intro row col row' col' same
    exact (spellsHead_cellCode row col).unique (same ▸ spellsHead_cellCode row' col')
  rw [cellCodes, List.nodup_flatMap]
  constructor
  · intro row _
    exact List.nodup_range.map fun _ _ same => (sameCell same).2
  · refine List.nodup_range.imp fun different => ?_
    intro code inRow inOther
    obtain ⟨col, _, rfl⟩ := List.mem_map.mp inRow
    obtain ⟨col', _, same⟩ := List.mem_map.mp inOther
    exact different (sameCell same).1.symm

theorem codes_name_cells (geometry : GridGeometry) : CodesNameCells geometry where
  decodes := by
    intro row rowInside col colInside
    have spells := spellsHead_cellCode row col
    refine ⟨?_, fun sub first last => ?_⟩
    · refine (parseCell_eq_some_iff).mpr ⟨?_, rowInside, colInside⟩
      rw [normalize_cellCode]
      exact spells
    · refine (parseCell_eq_some_iff).mpr ⟨?_, rowInside, colInside⟩
      rw [normalize_subCode]
      exact ⟨_, _, rfl, spells, ⟨first, last⟩, [], 0, .inl rfl, rfl⟩
  distinct := nodup_cellCodes geometry
  inside := by
    intro code cell parsed
    obtain ⟨spells, rowInside, colInside⟩ := (parseCell_eq_some_iff).mp parsed
    exact ⟨rowInside, colInside, spells⟩
  outside := by
    intro row col outside
    by_contra accepted
    obtain ⟨⟨row', col', sub⟩, parsed⟩ := Option.ne_none_iff_exists'.mp accepted
    obtain ⟨spells, inside⟩ := (parseCell_eq_some_iff).mp parsed
    rw [normalize_cellCode] at spells
    cases sub with
    | none =>
        obtain ⟨rfl, rfl⟩ := (spellsHead_cellCode row col).unique spells
        exact outside inside
    | some sub =>
        obtain ⟨head, tail, isCode, _⟩ := spells
        have dot : '.' ∈ cellCode row col := by
          rw [isCode]
          exact List.mem_append_right _ List.mem_cons_self
        exact ((spellsHead_cellCode row col).stable dot).1 rfl

end Yggterm.ClickGrid
