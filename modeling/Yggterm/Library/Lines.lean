import Mathlib.Algebra.Ring.Int.Defs
import Mathlib.Algebra.Ring.Nat
import Yggterm.Library.Search
import Yggterm.Library.Text

/-!
# Lines and decimals

The lines of a text as `str::lines` gives them, the last occurrence of a needle, and the
decimal numbers that `format` writes and `parse` reads back.
-/

namespace Text

open Search

/-! ## Trimming -/

theorem trim_append_of_isWhitespace {char : Char} (blank : isWhitespace char = true)
    (text : List Char) : trim (text ++ [char]) = trim text := by
  induction text with
  | nil => simp [trim, blank]
  | cons first rest inductionHypothesis =>
      by_cases firstBlank : isWhitespace first = true
      · rw [List.cons_append, trim_cons_of_isWhitespace firstBlank, inductionHypothesis,
          trim_cons_of_isWhitespace firstBlank]
      · rw [List.cons_append, trim, List.dropWhile_cons_of_neg firstBlank, trim,
          List.dropWhile_cons_of_neg firstBlank, ← List.cons_append, List.reverse_append,
          List.reverse_singleton, List.singleton_append, List.dropWhile_cons_of_pos blank]

theorem trim_concat_of_solid {last : Char} (solid : isWhitespace last = false)
    (text : List Char) : trim (text ++ [last]) = (text ++ [last]).dropWhile isWhitespace := by
  change ((text ++ [last]).dropWhile isWhitespace).rdropWhile isWhitespace = _
  rw [List.dropWhile_append]
  split
  · have kept : [last].dropWhile isWhitespace = [last] :=
      List.dropWhile_cons_of_neg (by simp [solid])
    rw [kept]
    exact List.rdropWhile_concat_neg isWhitespace [] last (by simp [solid])
  · exact List.rdropWhile_concat_neg isWhitespace _ last (by simp [solid])

theorem trim_eq_nil_iff {text : List Char} :
    trim text = [] ↔ ∀ char ∈ text, isWhitespace char = true := by
  induction text with
  | nil => simp [trim]
  | cons first rest inductionHypothesis =>
      by_cases blank : isWhitespace first = true
      · rw [trim_cons_of_isWhitespace blank, inductionHypothesis, List.forall_mem_cons]
        exact (and_iff_right blank).symm
      · constructor
        · intro empty
          rw [trim, List.dropWhile_cons_of_neg blank, List.reverse_eq_nil_iff,
            List.dropWhile_eq_nil_iff] at empty
          exact absurd (empty first (by simp)) blank
        · intro allBlank
          exact absurd (allBlank first List.mem_cons_self) blank

/-- Blanks in front are trimmed away. -/
theorem trim_append_of_trim_eq_nil {front : List Char} (blank : trim front = [])
    (text : List Char) : trim (front ++ text) = trim text := by
  induction front with
  | nil => rfl
  | cons first rest inductionHypothesis =>
      obtain ⟨firstBlank, restBlank⟩ := List.forall_mem_cons.mp (trim_eq_nil_iff.mp blank)
      rw [List.cons_append, trim_cons_of_isWhitespace firstBlank]
      exact inductionHypothesis (trim_eq_nil_iff.mpr restBlank)

theorem trim_length_le (text : List Char) : (trim text).length ≤ text.length :=
  (trim_sublist text).length_le

theorem trim_eq_self_iff {text : List Char} :
    trim text = text ↔ (∀ first ∈ text.head?, isWhitespace first = false) ∧
      ∀ last ∈ text.getLast?, isWhitespace last = false := by
  constructor
  · intro trimmed
    constructor
    · intro first isFirst
      obtain ⟨rest, rfl⟩ := List.head?_eq_some_iff.mp isFirst
      apply Bool.eq_false_iff.mpr
      intro blank
      have shorter := trim_length_le rest
      rw [← trim_cons_of_isWhitespace blank, trimmed, List.length_cons] at shorter
      omega
    · intro last isLast
      obtain ⟨front, rfl⟩ := List.getLast?_eq_some_iff.mp isLast
      apply Bool.eq_false_iff.mpr
      intro blank
      have shorter := trim_length_le front
      rw [← trim_append_of_isWhitespace blank, trimmed, List.length_append,
        List.length_singleton] at shorter
      omega
  · rintro ⟨solidFirst, solidLast⟩
    rcases List.eq_nil_or_concat' text with rfl | ⟨front, last, rfl⟩
    · rfl
    · rw [trim_concat_of_solid (solidLast last (by simp))]
      cases front with
      | nil => exact List.dropWhile_cons_of_neg (by simpa using solidFirst)
      | cons first rest => exact List.dropWhile_cons_of_neg (by simpa using solidFirst)

/-- Trimming keeps a first character that is no blank. -/
theorem exists_trim_cons {first : Char} (solid : isWhitespace first = false) (rest : List Char) :
    ∃ others, trim (first :: rest) = first :: others := by
  rw [trim, List.dropWhile_cons_of_neg (by simp [solid])]
  change ∃ others, (first :: rest).rdropWhile isWhitespace = first :: others
  cases isShort : (first :: rest).rdropWhile isWhitespace with
  | nil =>
      have blank := List.rdropWhile_eq_nil_iff.mp isShort first List.mem_cons_self
      rw [solid] at blank
      cases blank
  | cons head others =>
      have begins : (first :: rest).rdropWhile isWhitespace <+: first :: rest :=
        List.rdropWhile_prefix _ _
      rw [isShort] at begins
      exact ⟨others, by rw [(List.cons_prefix_cons.mp begins).1]⟩

theorem exists_trim (text : List Char) : ∃ front back, text = front ++ (trim text ++ back) ∧
    (∀ char ∈ front, isWhitespace char = true) ∧ ∀ char ∈ back, isWhitespace char = true := by
  refine ⟨text.takeWhile isWhitespace,
    ((text.dropWhile isWhitespace).reverse.takeWhile isWhitespace).reverse, ?_, ?_, ?_⟩
  · rw [trim, ← List.reverse_append, List.takeWhile_append_dropWhile, List.reverse_reverse,
      List.takeWhile_append_dropWhile]
  · exact fun char member => List.mem_takeWhile_imp member
  · exact fun char member => List.mem_takeWhile_imp (List.mem_reverse.mp member)

/-- A word that begins and ends solid is not cut off by trimming. -/
theorem infix_trim_iff {first last : Char} {word middle text : List Char}
    (begins : word = first :: middle) (ends : word.getLast? = some last)
    (solidFirst : isWhitespace first = false) (solidLast : isWhitespace last = false) :
    word <:+: trim text ↔ word <:+: text := by
  obtain ⟨front, back, isText, blankFront, blankBack⟩ := exists_trim text
  constructor
  · rintro ⟨before, after, isTrim⟩
    refine ⟨front ++ before, after ++ back, ?_⟩
    rw [isText, ← isTrim]
    simp
  · intro inText
    rw [isText] at inText
    have inRest : word <:+: trim text ++ back := by
      clear isText
      induction front with
      | nil => exact inText
      | cons blank rest inductionHypothesis =>
          obtain ⟨isBlank, restBlank⟩ := List.forall_mem_cons.mp blankFront
          rcases List.infix_cons_iff.mp inText with here | later
          · rw [begins] at here
            rw [(List.cons_prefix_cons.mp here).1, isBlank] at solidFirst
            cases solidFirst
          · exact inductionHypothesis restBlank later
    clear isText inText
    induction back using List.reverseRecOn with
    | nil => rwa [List.append_nil] at inRest
    | append_singleton rest blank inductionHypothesis =>
        rw [← List.append_assoc] at inRest
        rcases List.infix_concat_iff.mp inRest with here | earlier
        · obtain ⟨before, isWhole⟩ := here
          have isLast := congrArg List.getLast? isWhole
          rw [List.getLast?_append, ends, List.getLast?_concat, Option.some_or] at isLast
          rw [Option.some.inj isLast, blankBack blank (by simp)] at solidLast
          cases solidLast
        · exact inductionHypothesis (fun char member => blankBack char (by simp [member])) earlier

/-! ## Lines -/

/-- The carriage return before a newline belongs to the line's end. -/
def dropReturn (line : List Char) : List Char :=
  if line.getLast? = some '\r' then line.dropLast else line

theorem eq_append_of_getLast {line : List Char} (ends : line.getLast? = some '\r') :
    line = line.dropLast ++ ['\r'] := by
  obtain ⟨front, isLine⟩ := List.getLast?_eq_some_iff.mp ends
  rw [isLine, List.dropLast_concat]

theorem trim_dropReturn (line : List Char) : trim (dropReturn line) = trim line := by
  rw [dropReturn]
  split
  · next ends =>
      conv_rhs => rw [eq_append_of_getLast ends, trim_append_of_isWhitespace (by decide)]
  · rfl

/-- `str::lines`: every newline ends a line, and what follows the last one is a line too
unless it is empty. -/
def lines (text : List Char) : List (List Char) :=
  let pieces := text.splitOn '\n'
  pieces.dropLast.map dropReturn ++ pieces.getLast?.toList.filter (· ≠ [])

@[simp]
theorem lines_nil : lines [] = [] := by decide

theorem lines_of_clean {text : List Char} (clean : '\n' ∉ text) (nonempty : text ≠ []) :
    lines text = [text] := by
  have single : text.splitOn '\n' = [text] := List.splitOn_eq_singleton clean
  simp [lines, single, nonempty]

theorem lines_append_newline {line : List Char} (clean : '\n' ∉ line) (rest : List Char) :
    lines (line ++ '\n' :: rest) = dropReturn line :: lines rest := by
  have split : (line ++ '\n' :: rest).splitOn '\n' = line :: rest.splitOn '\n' :=
    List.splitOn_append_cons_self_of_not_mem clean _
  have nonempty := List.splitOn_ne_nil '\n' rest
  rw [lines, split, List.dropLast_cons_of_ne_nil nonempty, List.getLast?_cons]
  simp [lines, List.getLast?_eq_some_getLast nonempty]

/-- Each newline ends a line, whatever follows. -/
theorem lines_flatMap_newline {ended : List (List Char)} (clean : ∀ line ∈ ended, '\n' ∉ line)
    (rest : List Char) :
    lines (ended.flatMap (· ++ ['\n']) ++ rest) = ended.map dropReturn ++ lines rest := by
  induction ended with
  | nil => rfl
  | cons line others inductionHypothesis =>
      obtain ⟨noNewline, othersClean⟩ := List.forall_mem_cons.mp clean
      rw [List.flatMap_cons, List.append_assoc, List.append_assoc, List.singleton_append,
        lines_append_newline noNewline, inductionHypothesis othersClean, List.map_cons,
        List.cons_append]

/-- What follows the last newline. -/
def lastPiece (text : List Char) : List Char := ((text.splitOn '\n').getLast?).getD []

/-- A text is some ended lines and what follows the last newline. -/
theorem exists_ended (text : List Char) : ∃ ended : List (List Char),
    text = ended.flatMap (· ++ ['\n']) ++ lastPiece text ∧ (∀ line ∈ ended, '\n' ∉ line) ∧
      '\n' ∉ lastPiece text := by
  have nonempty := List.splitOn_ne_nil '\n' text
  have isLast : lastPiece text = (text.splitOn '\n').getLast nonempty := by
    rw [lastPiece, List.getLast?_eq_some_getLast nonempty, Option.getD_some]
  refine ⟨(text.splitOn '\n').dropLast, ?_, ?_, ?_⟩
  · have joined : ['\n'].intercalate (text.splitOn '\n') = text := List.intercalate_splitOn '\n'
    rw [← List.dropLast_append_getLast nonempty, intercalate_append (by simp),
      List.intercalate_singleton, ← isLast] at joined
    exact joined.symm
  · intro line member
    exact not_mem_of_mem_splitOn (List.mem_of_mem_dropLast member)
  · rw [isLast]
    exact not_mem_of_mem_splitOn (List.getLast_mem nonempty)

theorem lines_eq_of_ended {ended : List (List Char)} {last : List Char}
    (clean : ∀ line ∈ ended, '\n' ∉ line) (lastClean : '\n' ∉ last) :
    lines (ended.flatMap (· ++ ['\n']) ++ last) =
      ended.map dropReturn ++ if last = [] then [] else [last] := by
  rw [lines_flatMap_newline clean]
  split
  · next empty => rw [empty, lines_nil]
  · next nonempty => rw [lines_of_clean lastClean nonempty]

/-- The lines before a newline and those behind it have nothing to do with each other. -/
theorem lines_append_cons (front rest : List Char) :
    lines (front ++ '\n' :: rest) = lines (front ++ ['\n']) ++ lines rest := by
  obtain ⟨ended, isFront, clean, lastClean⟩ := exists_ended front
  have allClean : ∀ line ∈ ended ++ [lastPiece front], '\n' ∉ line := by
    intro line member
    rcases List.mem_append.mp member with inEnded | isLast
    · exact clean line inEnded
    · exact List.mem_singleton.mp isLast ▸ lastClean
  have isEnded : ∀ after, front ++ '\n' :: after =
      (ended ++ [lastPiece front]).flatMap (· ++ ['\n']) ++ after := by
    intro after
    conv_lhs => rw [isFront]
    simp
  rw [isEnded rest, isEnded [], lines_flatMap_newline allClean, lines_flatMap_newline allClean,
    lines_nil, List.append_nil]

/-- Whatever stands in front, the lines but for the first are the last lines of the text. -/
theorem exists_lines_drop (front : List Char) {junk : List Char} (clean : '\n' ∉ junk)
    (rest : List Char) :
    ∃ before, lines (front ++ rest) = before ++ (lines (junk ++ rest)).drop 1 := by
  by_cases ends : '\n' ∈ rest
  · obtain ⟨line, later, rfl, lineClean⟩ := List.eq_append_cons_of_mem ends
    refine ⟨lines ((front ++ line) ++ ['\n']), ?_⟩
    have junkClean : '\n' ∉ junk ++ line := by simp [clean, lineClean]
    rw [← List.append_assoc, lines_append_cons, ← List.append_assoc, lines_append_newline junkClean,
      List.drop_one, List.tail_cons]
  · refine ⟨lines (front ++ rest), ?_⟩
    have single : (lines (junk ++ rest)).drop 1 = [] := by
      by_cases empty : junk ++ rest = []
      · rw [empty, lines_nil, List.drop_nil]
      · rw [lines_of_clean (by simp [clean, ends]) empty, List.drop_one, List.tail_cons]
    rw [single, List.append_nil]

theorem newline_not_mem_dropReturn {line : List Char} (clean : '\n' ∉ line) :
    '\n' ∉ dropReturn line := by
  rw [dropReturn]
  split
  · exact fun member => clean (List.mem_of_mem_dropLast member)
  · exact clean

theorem newline_not_mem_lines {text line : List Char} (member : line ∈ lines text) :
    '\n' ∉ line := by
  obtain ⟨ended, isText, clean, lastClean⟩ := exists_ended text
  rw [isText, lines_eq_of_ended clean lastClean] at member
  rcases List.mem_append.mp member with inEnded | isLast
  · obtain ⟨other, isOther, rfl⟩ := List.mem_map.mp inEnded
    exact newline_not_mem_dropReturn (clean other isOther)
  · split at isLast
    · cases isLast
    · rw [List.mem_singleton.mp isLast]
      exact lastClean

theorem intercalate_newline_append {written : List (List Char)} (nonempty : written ≠ []) :
    ['\n'].intercalate written ++ ['\n'] = written.flatMap (· ++ ['\n']) := by
  induction written with
  | nil => exact absurd rfl nonempty
  | cons line others inductionHypothesis =>
      cases others with
      | nil => simp
      | cons next later =>
          rw [List.intercalate_cons_cons, List.append_assoc, inductionHypothesis (by simp)]
          simp

/-! ## The last occurrence -/

/-- `str::rsplit_once`: what stands before the last occurrence of the needle, and what
follows it. -/
def findLast (needle text : List Char) : Option (List Char × List Char) :=
  (findText needle.reverse text.reverse).map fun found => (found.2.reverse, found.1.reverse)

theorem findLast_eq {needle text before after : List Char}
    (found : findLast needle text = some (before, after)) : text = before ++ (needle ++ after) := by
  obtain ⟨⟨first, second⟩, isFound, same⟩ := Option.map_eq_some_iff.mp found
  cases same
  have reversed := congrArg List.reverse (findText_eq isFound)
  simpa using reversed

/-! ## Decimals -/

theorem isDigit_of_mem_parseUnsigned {bits value : Nat} {text : List Char}
    (parsed : parseUnsigned bits text = some value) {char : Char} (member : char ∈ text) :
    char = '+' ∨ char.isDigit = true := by
  have isDigits : ∀ digit ∈ if text.head? = some '+' then text.tail else text,
      digit.isDigit = true := by
    apply Classical.byContradiction
    intro other
    have notAll : ¬ (if text.head? = some '+' then text.tail else text).all Char.isDigit = true :=
      fun all => other (List.all_eq_true.mp all)
    simp [parseUnsigned, notAll] at parsed
  cases text with
  | nil => cases member
  | cons first rest =>
      by_cases plus : first = '+'
      · rcases List.mem_cons.mp member with rfl | later
        · exact .inl plus
        · exact .inr (isDigits char (by simpa [plus] using later))
      · exact .inr (isDigits char (by simpa [plus] using member))

theorem lt_of_parseUnsigned {bits value : Nat} {text : List Char}
    (parsed : parseUnsigned bits text = some value) : value < 2 ^ bits := by
  simp only [parseUnsigned, Option.ite_none_right_eq_some, Option.some.injEq] at parsed
  obtain ⟨_, small, rfl⟩ := parsed
  exact small

theorem trim_of_forall_not_isWhitespace {text : List Char}
    (solid : ∀ char ∈ text, isWhitespace char = false) : trim text = text := by
  have kept : ∀ part : List Char, (∀ char ∈ part, isWhitespace char = false) →
      part.dropWhile isWhitespace = part := by
    intro part partSolid
    cases part with
    | nil => rfl
    | cons first rest => exact List.dropWhile_cons_of_neg (by simp [partSolid first])
  rw [trim, kept text solid, kept text.reverse (by simpa using solid), List.reverse_reverse]

theorem isWhitespace_of_isDigit {char : Char} (digit : char.isDigit = true) :
    isWhitespace char = false := by
  obtain ⟨low, high⟩ := Char.isDigit_iff_toNat.mp digit
  have isLow : '0'.toNat = 48 := rfl
  have isHigh : '9'.toNat = 57 := rfl
  simp only [isWhitespace, Bool.or_eq_false_iff, Bool.and_eq_false_iff, decide_eq_false_iff_not]
  omega

theorem trim_toDigits (value : Nat) : trim (Nat.toDigits 10 value) = Nat.toDigits 10 value := by
  apply trim_of_forall_not_isWhitespace
  intro char member
  exact isWhitespace_of_isDigit (Nat.isDigit_of_mem_toDigits (by decide) (by decide) member)

theorem foldl_zeros (count : Nat) : (List.replicate count '0').foldl
    (fun value digit => 10 * value + (digit.toNat - '0'.toNat)) 0 = 0 := by
  induction count with
  | zero => rfl
  | succ count inductionHypothesis => exact inductionHypothesis

/-- A number that was written in decimal reads back as itself, with zeros before it or not. -/
theorem parseUnsigned_zeros (bits count value : Nat) :
    parseUnsigned bits (List.replicate count '0' ++ Nat.toDigits 10 value) =
      if value < 2 ^ bits then some value else none := by
  have isDigits : ∀ char ∈ List.replicate count '0' ++ Nat.toDigits 10 value,
      char.isDigit = true := by
    intro char member
    rcases List.mem_append.mp member with isZero | isDigit
    · rw [List.eq_of_mem_replicate isZero]
      decide
    · exact Nat.isDigit_of_mem_toDigits (by decide) (by decide) isDigit
  have noPlus : (List.replicate count '0' ++ Nat.toDigits 10 value).head? ≠ some '+' := by
    intro plus
    exact absurd (isDigits '+' (List.mem_of_mem_head? plus)) (by decide)
  have isValue : (List.replicate count '0' ++ Nat.toDigits 10 value).foldl
      (fun value digit => 10 * value + (digit.toNat - '0'.toNat)) 0 = value := by
    rw [List.foldl_append, foldl_zeros, ← Nat.ofDigitChars_eq_foldl]
    exact Nat.ofDigitChars_ten_toDigits
  have nonempty : List.replicate count '0' ++ Nat.toDigits 10 value ≠ [] :=
    List.append_ne_nil_of_right_ne_nil _ Nat.toDigits_ne_nil
  rw [parseUnsigned, if_neg noPlus, if_pos ⟨nonempty, List.all_eq_true.mpr isDigits⟩, isValue]

theorem parseUnsigned_toDigits (bits value : Nat) :
    parseUnsigned bits (Nat.toDigits 10 value) = if value < 2 ^ bits then some value else none :=
  parseUnsigned_zeros bits 0 value

theorem toDigits_of_isDigit {char : Char} (digit : char.isDigit = true) :
    char.toNat - '0'.toNat < 10 ∧ Nat.toDigits 10 (char.toNat - '0'.toNat) = [char] := by
  obtain ⟨low, high⟩ := Char.isDigit_iff_toNat.mp digit
  have isLow : '0'.toNat = 48 := rfl
  have isHigh : '9'.toNat = 57 := rfl
  have small : char.toNat - '0'.toNat < 10 := by omega
  have isChar : ∀ offset : Fin 10,
      Nat.digitChar offset.val = Char.ofNat ('0'.toNat + offset.val) := by
    decide
  refine ⟨small, ?_⟩
  rw [Nat.toDigits_of_lt_base small, isChar ⟨_, small⟩, Nat.add_sub_cancel' (by omega),
    Char.ofNat_toNat]

/-- Digits are the decimal of the number that they are read as, behind zeros. -/
theorem exists_zeros {digits : List Char} (nonempty : digits ≠ [])
    (all : ∀ char ∈ digits, char.isDigit = true) :
    ∃ zeros, digits = List.replicate zeros '0' ++ Nat.toDigits 10 (digits.foldl
      (fun value digit => 10 * value + (digit.toNat - '0'.toNat)) 0) := by
  induction digits using List.reverseRecOn with
  | nil => exact absurd rfl nonempty
  | append_singleton front last inductionHypothesis =>
      obtain ⟨small, isLast⟩ := toDigits_of_isDigit (all last (by simp))
      rw [List.foldl_append, List.foldl_cons, List.foldl_nil]
      by_cases isFirst : front = []
      · refine ⟨0, ?_⟩
        rw [isFirst, List.foldl_nil, Nat.mul_zero, Nat.zero_add, isLast]
        rfl
      · obtain ⟨zeros, isFront⟩ := inductionHypothesis isFirst
          fun char member => all char (List.mem_append_left _ member)
        by_cases isZero : front.foldl
            (fun value digit => 10 * value + (digit.toNat - '0'.toNat)) 0 = 0
        · refine ⟨zeros + 1, ?_⟩
          rw [isZero, Nat.toDigits_zero] at isFront
          rw [isZero, Nat.mul_zero, Nat.zero_add, isLast, isFront, ← List.replicate_succ']
        · refine ⟨zeros, ?_⟩
          rw [← Nat.toDigits_append_toDigits (by decide) (Nat.pos_of_ne_zero isZero) small, isLast,
            ← List.append_assoc, ← isFront]

/-- What reads as a number is its decimal, behind zeros and perhaps a `+`. -/
theorem exists_zeros_of_parseUnsigned {bits value : Nat} {text : List Char}
    (parsed : parseUnsigned bits text = some value) : ∃ sign zeros, (sign = [] ∨ sign = ['+']) ∧
      text = sign ++ (List.replicate zeros '0' ++ Nat.toDigits 10 value) := by
  simp only [parseUnsigned, Option.ite_none_right_eq_some, Option.some.injEq] at parsed
  obtain ⟨⟨nonempty, all⟩, _, isValue⟩ := parsed
  obtain ⟨zeros, isDigits⟩ := exists_zeros nonempty (List.all_eq_true.mp all)
  rw [isValue] at isDigits
  by_cases plus : text.head? = some '+'
  · rw [if_pos plus] at isDigits
    obtain ⟨rest, rfl⟩ := List.head?_eq_some_iff.mp plus
    exact ⟨['+'], zeros, .inr rfl, congrArg _ isDigits⟩
  · rw [if_neg plus] at isDigits
    exact ⟨[], zeros, .inl rfl, isDigits⟩

/-- `str::parse` at a signed type. -/
def parseSigned (bits : Nat) (text : List Char) : Option Int :=
  if text.head? = some '-' then
    if text.tail.head? = some '+' then none
    else
      ((parseUnsigned bits text.tail).filter (· ≤ 2 ^ (bits - 1))).map fun (value : Nat) => -value
  else (parseUnsigned (bits - 1) text).map fun (value : Nat) => value

def writeSigned (value : Int) : List Char :=
  if value < 0 then '-' :: Nat.toDigits 10 value.natAbs else Nat.toDigits 10 value.natAbs

theorem isDigit_of_mem_writeSigned {value : Int} {char : Char} (member : char ∈ writeSigned value) :
    char = '-' ∨ char.isDigit = true := by
  have isDigit : ∀ {digit : Char}, digit ∈ Nat.toDigits 10 value.natAbs → digit.isDigit = true :=
    fun inDigits => Nat.isDigit_of_mem_toDigits (by decide) (by decide) inDigits
  rw [writeSigned] at member
  split at member
  · exact (List.mem_cons.mp member).imp_right isDigit
  · exact .inr (isDigit member)

theorem trim_writeSigned (value : Int) : trim (writeSigned value) = writeSigned value := by
  apply trim_of_forall_not_isWhitespace
  intro char member
  rcases isDigit_of_mem_writeSigned member with rfl | digit
  · decide
  · exact isWhitespace_of_isDigit digit

theorem head?_toDigits_ne {char : Char} (other : char.isDigit = false) (value : Nat) :
    (Nat.toDigits 10 value).head? ≠ some char := by
  intro isHead
  have digit := Nat.isDigit_of_mem_toDigits (by decide) (by decide) (List.mem_of_mem_head? isHead)
  simp [other] at digit

theorem bounds_of_parseSigned {bits : Nat} {text : List Char} {value : Int}
    (parsed : parseSigned (bits + 1) text = some value) :
    -2 ^ bits ≤ value ∧ value < 2 ^ bits := by
  have isPow : (2 : Int) ^ bits = ((2 ^ bits : Nat) : Int) := by push_cast; rfl
  have positive : 0 < 2 ^ bits := Nat.two_pow_pos bits
  rw [isPow]
  simp only [parseSigned, Nat.add_sub_cancel] at parsed
  split at parsed
  · split at parsed
    · cases parsed
    · obtain ⟨digits, isDigits, rfl⟩ := Option.map_eq_some_iff.mp parsed
      have small := of_decide_eq_true (Option.filter_eq_some_iff.mp isDigits).2
      omega
  · obtain ⟨digits, isDigits, rfl⟩ := Option.map_eq_some_iff.mp parsed
    have small := lt_of_parseUnsigned isDigits
    omega

/-- A number of the type is read back. -/
theorem parseSigned_writeSigned {bits : Nat} {value : Int} (low : -2 ^ bits ≤ value)
    (high : value < 2 ^ bits) : parseSigned (bits + 1) (writeSigned value) = some value := by
  have isPow : (2 : Int) ^ bits = ((2 ^ bits : Nat) : Int) := by push_cast; rfl
  rw [isPow] at low high
  have lowNat : value < 0 → value.natAbs ≤ 2 ^ bits := by
    intro negative
    omega
  have highNat : 0 ≤ value → value.natAbs < 2 ^ bits := by
    intro positive
    omega
  rw [writeSigned]
  split
  · next negative =>
      have small : value.natAbs < 2 ^ (bits + 1) := by
        have bound := lowNat negative
        have positive : 0 < 2 ^ bits := Nat.two_pow_pos bits
        rw [Nat.pow_succ]
        omega
      have kept : (some value.natAbs).filter (· ≤ 2 ^ (bits + 1 - 1)) = some value.natAbs := by
        simpa using lowNat negative
      have noPlus : (Nat.toDigits 10 value.natAbs).head? ≠ some '+' :=
        head?_toDigits_ne (by decide) value.natAbs
      simp only [parseSigned, List.head?_cons, if_true, List.tail_cons, if_neg noPlus,
        parseUnsigned_toDigits, if_pos small, kept, Option.map_some]
      congr 1
      omega
  · next nonnegative =>
      have positive : 0 ≤ value := Int.not_lt.mp nonnegative
      rw [parseSigned, if_neg (head?_toDigits_ne (by decide) _), Nat.add_sub_cancel,
        parseUnsigned_toDigits, if_pos (highNat positive), Option.map_some]
      congr 1
      omega

end Text
