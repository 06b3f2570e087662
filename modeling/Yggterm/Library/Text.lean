import Mathlib.Algebra.Ring.Nat
import Mathlib.Data.List.DropRight

/-!
# Texts and their lines

Texts are lists of characters.  Trimming and the reading of numbers follow the
standard library of Rust; a text is read as lines by splitting it at its newlines.
-/

namespace Text

universe u v

instance neZeroWord16 : NeZero (2 ^ 16) := inferInstance

instance neZeroWord32 : NeZero (2 ^ 32) := inferInstance

instance neZeroWord64 : NeZero (2 ^ 64) := inferInstance

/-- The `White_Space` characters, which `trim` takes off. -/
def isWhitespace (char : Char) : Bool :=
  (0x09 ≤ char.toNat && char.toNat ≤ 0x0d) || char.toNat = 0x20 || char.toNat = 0x85 ||
    char.toNat = 0xa0 || char.toNat = 0x1680 || (0x2000 ≤ char.toNat && char.toNat ≤ 0x200a) ||
    char.toNat = 0x2028 || char.toNat = 0x2029 || char.toNat = 0x202f || char.toNat = 0x205f ||
    char.toNat = 0x3000

def trimStart (text : List Char) : List Char := text.dropWhile isWhitespace

def trimEnd (text : List Char) : List Char := (text.reverse.dropWhile isWhitespace).reverse

def trim (text : List Char) : List Char :=
  ((text.dropWhile isWhitespace).reverse.dropWhile isWhitespace).reverse

/-- `str::parse` at an unsigned type: digits, with a `+` before them or not. -/
def parseUnsigned (bits : Nat) (text : List Char) : Option Nat :=
  let digits := if text.head? = some '+' then text.tail else text
  if digits ≠ [] ∧ digits.all Char.isDigit then
    let value := digits.foldl (fun value digit => 10 * value + (digit.toNat - '0'.toNat)) 0
    if value < 2 ^ bits then some value else none
  else none

/-- What goes through has gone through its first step. -/
theorem ok_of_bind {Failure : Type v} {Middle Value : Type u} {first : Except Failure Middle}
    {rest : Middle → Except Failure Value} {value : Value} (isOk : first >>= rest = .ok value) :
    ∃ middle, first = .ok middle ∧ rest middle = .ok value := by
  cases first with
  | error error => cases isOk
  | ok middle => exact ⟨middle, rfl, isOk⟩

/-! ## Trimming -/

theorem trim_sublist (text : List Char) : (trim text).Sublist text := by
  rw [trim, ← List.reverse_sublist, List.reverse_reverse]
  apply (List.dropWhile_sublist isWhitespace).trans
  exact (List.dropWhile_sublist isWhitespace).reverse

theorem mem_of_mem_trim {char : Char} {text : List Char} (member : char ∈ trim text) :
    char ∈ text :=
  (trim_sublist text).subset member

theorem trim_cons_of_isWhitespace {char : Char} (blank : isWhitespace char) (text : List Char) :
    trim (char :: text) = trim text := by
  rw [trim, List.dropWhile_cons_of_pos blank]
  rfl

/-- Dropping from the end brings nothing to drop to the front. -/
theorem dropWhile_rdropWhile {drops : Char → Bool} {text : List Char}
    (clean : text.dropWhile drops = text) :
    (text.rdropWhile drops).dropWhile drops = text.rdropWhile drops := by
  obtain ⟨rest, isText⟩ := List.rdropWhile_prefix drops text
  cases isShort : text.rdropWhile drops with
  | nil => rfl
  | cons first others =>
      rw [isShort, List.cons_append] at isText
      apply List.dropWhile_cons_of_neg
      intro dropped
      have shorter := (List.dropWhile_suffix drops (l := others ++ rest)).length_le
      rw [← isText, List.dropWhile_cons_of_pos dropped] at clean
      rw [clean, List.length_cons] at shorter
      omega

@[simp]
theorem trim_trim (text : List Char) : trim (trim text) = trim text := by
  change (((text.dropWhile isWhitespace).rdropWhile isWhitespace).dropWhile
    isWhitespace).rdropWhile isWhitespace = (text.dropWhile isWhitespace).rdropWhile isWhitespace
  rw [dropWhile_rdropWhile (List.dropWhile_idempotent isWhitespace text)]
  exact List.rdropWhile_idempotent isWhitespace _

/-! ## Lines -/

theorem not_mem_of_mem_splitOn {char : Char} {text line : List Char}
    (member : line ∈ text.splitOn char) : char ∉ line := by
  induction text generalizing line with
  | nil => simp_all
  | cons first rest inductionHypothesis =>
      rw [List.splitOn_cons_eq_if_modifyHead] at member
      split at member
      · rcases List.mem_cons.mp member with rfl | later
        · exact List.not_mem_nil
        · exact inductionHypothesis later
      · next other =>
          cases isSplit : rest.splitOn char with
          | nil => exact absurd isSplit (List.splitOn_ne_nil char rest)
          | cons head tail =>
              rw [isSplit, List.modifyHead_cons] at member
              rcases List.mem_cons.mp member with rfl | later
              · have headClean := inductionHypothesis (isSplit ▸ List.mem_cons_self)
                have different : char ≠ first := fun same => other (by simp [same])
                exact List.not_mem_cons_of_ne_of_not_mem different headClean
              · exact inductionHypothesis (isSplit ▸ List.mem_cons_of_mem head later)

/-- Nonempty lists of lines are equal once their texts are. -/
theorem intercalate_eq_iff {char : Char} {lines others : List (List Char)}
    (nonempty : lines ≠ []) (othersNonempty : others ≠ [])
    (clean : ∀ line ∈ lines, char ∉ line) (othersClean : ∀ line ∈ others, char ∉ line) :
    [char].intercalate lines = [char].intercalate others ↔ lines = others := by
  constructor
  · intro same
    have split := congrArg (List.splitOn char) same
    rwa [List.splitOn_intercalate char clean nonempty,
      List.splitOn_intercalate char othersClean othersNonempty] at split
  · intro same
    rw [same]

theorem intercalate_map_sublist (char : Char) {change : List Char → List Char}
    (shorter : ∀ line, (change line).Sublist line) (lines : List (List Char)) :
    ([char].intercalate (lines.map change)).Sublist ([char].intercalate lines) := by
  induction lines with
  | nil => exact .refl _
  | cons line rest inductionHypothesis =>
      cases rest with
      | nil => simpa using shorter line
      | cons next later =>
          rw [List.map_cons, List.map_cons, List.intercalate_cons_cons, List.intercalate_cons_cons]
          exact ((shorter line).append (.refl _)).append inductionHypothesis

/-- A word ends before what it has no character of. -/
theorem prefix_of_prefix_append {word first rest : List Char} (isPrefix : word <+: first ++ rest)
    (apart : ∀ char ∈ rest.head?, char ∉ word) : word <+: first := by
  rcases le_total word.length first.length with shorter | longer
  · exact List.prefix_of_prefix_length_le isPrefix (List.prefix_append first rest) shorter
  · obtain ⟨more, rfl⟩ := List.prefix_of_prefix_length_le (List.prefix_append first rest) isPrefix
      longer
    cases more with
    | nil => simp
    | cons char more =>
        obtain ⟨later, isRest⟩ := (List.prefix_append_right_inj first).mp isPrefix
        refine absurd ?_ (apart char ?_)
        · simp
        · rw [← isRest]
          rfl

/-- A separator before each line. -/
theorem cons_intercalate {char : Char} {lines : List (List Char)} (nonempty : lines ≠ []) :
    char :: [char].intercalate lines = lines.flatMap (char :: ·) := by
  induction lines with
  | nil => exact absurd rfl nonempty
  | cons line rest inductionHypothesis =>
      cases rest with
      | nil => simp
      | cons next later =>
          rw [List.intercalate_cons_cons, List.flatMap_cons,
            ← inductionHypothesis (List.cons_ne_nil _ _)]
          simp

/-- Lines that others follow are each ended by the separator. -/
theorem intercalate_append {char : Char} {lines others : List (List Char)}
    (nonempty : others ≠ []) :
    [char].intercalate (lines ++ others) =
      lines.flatMap (fun line => line ++ [char]) ++ [char].intercalate others := by
  induction lines with
  | nil => rfl
  | cons line rest inductionHypothesis =>
      obtain ⟨next, later, isRest⟩ : ∃ next later, rest ++ others = next :: later :=
        List.exists_cons_of_ne_nil (by simp [nonempty])
      rw [List.cons_append, isRest, List.intercalate_cons_cons, ← isRest, inductionHypothesis,
        List.flatMap_cons]
      simp

theorem mem_of_mem_intercalate {separator char : Char} {lines : List (List Char)}
    (member : char ∈ [separator].intercalate lines) :
    char = separator ∨ ∃ line ∈ lines, char ∈ line := by
  induction lines with
  | nil => cases member
  | cons line rest inductionHypothesis =>
      cases rest with
      | nil => exact .inr ⟨line, List.mem_cons_self, by simpa using member⟩
      | cons next later =>
          rw [List.intercalate_cons_cons, List.append_assoc] at member
          rcases List.mem_append.mp member with inLine | behind
          · exact .inr ⟨line, List.mem_cons_self, inLine⟩
          · rcases List.mem_cons.mp behind with isSeparator | inLater
            · exact .inl isSeparator
            · rcases inductionHypothesis inLater with isSeparator | ⟨other, isOther, inOther⟩
              · exact .inl isSeparator
              · exact .inr ⟨other, List.mem_cons_of_mem line isOther, inOther⟩

end Text
