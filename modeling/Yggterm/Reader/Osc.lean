import Mathlib.Algebra.BigOperators.Group.List.Basic
import Mathlib.Algebra.Ring.Nat
import Yggterm.Library.Search

/-!
# OSC strings

The scanners of the reader look for `ESC ]` and then for the first `BEL` or
`ESC \`.  Texts are lists of characters; lengths are counted in bytes, as `len` of
a `String` is.
-/

namespace Yggterm.Reader

open Search

def esc : Char := Char.ofNat 0x1b

def bel : Char := Char.ofNat 0x07

/-- `ESC \` -/
def stringTerminator : List Char := [esc, '\\']

def byteLength (text : List Char) : Nat := (text.map Char.utf8Size).sum

@[simp]
theorem byteLength_nil : byteLength [] = 0 := rfl

@[simp]
theorem byteLength_cons (char : Char) (rest : List Char) :
    byteLength (char :: rest) = char.utf8Size + byteLength rest := by
  simp [byteLength]

@[simp]
theorem byteLength_append (first second : List Char) :
    byteLength (first ++ second) = byteLength first + byteLength second := by
  simp [byteLength]

theorem byteLength_eq_length {text : List Char} (ascii : ∀ char ∈ text, char.utf8Size = 1) :
    byteLength text = text.length := by
  induction text with
  | nil => rfl
  | cons char rest inductionHypothesis =>
      obtain ⟨isAscii, restAscii⟩ := List.forall_mem_cons.mp ascii
      rw [byteLength_cons, isAscii, inductionHypothesis restAscii, List.length_cons, Nat.add_comm]

theorem byteLength_le_of_isPrefix {first second : List Char} (isPrefix : first <+: second) :
    byteLength first ≤ byteLength second := by
  obtain ⟨rest, rfl⟩ := isPrefix
  simp

/-- An OSC string split at its end: the content, the terminator, what follows. -/
structure Closing where
  content : List Char
  terminator : List Char
  rest : List Char
  deriving DecidableEq

def Closing.push (char : Char) (closing : Closing) : Closing :=
  { closing with content := char :: closing.content }

/-- The first terminator of either kind. -/
def closing : List Char → Option Closing
  | [] => none
  | char :: rest =>
      if char = bel then some { content := [], terminator := [bel], rest }
      else if char = esc ∧ rest.head? = some '\\' then
        some { content := [], terminator := stringTerminator, rest := rest.tail }
      else (closing rest).map (Closing.push char)

theorem closing_eq {text : List Char} {closed : Closing} (found : closing text = some closed) :
    text = closed.content ++ (closed.terminator ++ closed.rest) := by
  induction text generalizing closed with
  | nil => cases found
  | cons char rest inductionHypothesis =>
      rw [closing] at found
      split at found
      · next isBel =>
          cases found
          simp [isBel]
      · split at found
        · next isString =>
            cases found
            obtain ⟨rfl, follows⟩ := isString
            obtain ⟨later, rfl⟩ := List.head?_eq_some_iff.mp follows
            rfl
        · obtain ⟨later, laterFound, rfl⟩ := Option.map_eq_some_iff.mp found
          rw [inductionHypothesis laterFound]
          rfl

theorem closing_shrinks {text : List Char} {closed : Closing} (found : closing text = some closed) :
    closed.rest.length ≤ text.length := by
  rw [closing_eq found]
  simp only [List.length_append]
  omega

theorem closing_append {text : List Char} {closed : Closing} (found : closing text = some closed)
    (more : List Char) :
    closing (text ++ more) = some { closed with rest := closed.rest ++ more } := by
  induction text generalizing closed with
  | nil => cases found
  | cons char rest inductionHypothesis =>
      rw [closing] at found
      rw [List.cons_append, closing]
      split at found
      · next isBel =>
          cases found
          rw [if_pos isBel]
      · next notBel =>
          rw [if_neg notBel]
          split at found
          · next isString =>
              cases found
              obtain ⟨isEsc, follows⟩ := isString
              obtain ⟨later, rfl⟩ := List.head?_eq_some_iff.mp follows
              rw [if_pos ⟨isEsc, rfl⟩]
              rfl
          · next notString =>
              obtain ⟨later, laterFound, rfl⟩ := Option.map_eq_some_iff.mp found
              -- the rest is not empty, so what comes after it does not complete an `ESC`
              have sameHead : (rest ++ more).head? = rest.head? := by
                cases rest with
                | nil => cases laterFound
                | cons next others => rfl
              rw [sameHead, if_neg notString, inductionHypothesis laterFound]
              rfl

theorem closing_terminator_ne_nil {text : List Char} {closed : Closing}
    (found : closing text = some closed) : closed.terminator ≠ [] := by
  induction text generalizing closed with
  | nil => cases found
  | cons char rest inductionHypothesis =>
      rw [closing] at found
      split at found
      · cases found
        simp
      · split at found
        · cases found
          simp [stringTerminator]
        · obtain ⟨later, laterFound, rfl⟩ := Option.map_eq_some_iff.mp found
          have nonempty : later.terminator ≠ [] := inductionHypothesis laterFound
          exact nonempty

/-- The string is found as well when nothing follows it. -/
theorem closing_of_rest_nil {text : List Char} {closed : Closing}
    (found : closing text = some closed) :
    closing (closed.content ++ closed.terminator) = some { closed with rest := [] } := by
  induction text generalizing closed with
  | nil => cases found
  | cons char rest inductionHypothesis =>
      rw [closing] at found
      split at found
      · cases found
        rfl
      · next notBel =>
          split at found
          · cases found
            rfl
          · next notString =>
              obtain ⟨later, laterFound, rfl⟩ := Option.map_eq_some_iff.mp found
              have sameHead : (later.content ++ later.terminator).head? = rest.head? := by
                have nonempty : later.content ++ later.terminator ≠ [] :=
                  List.append_ne_nil_of_right_ne_nil _ (closing_terminator_ne_nil laterFound)
                rw [closing_eq laterFound, ← List.append_assoc,
                  List.head?_append_of_ne_nil _ nonempty]
              change closing (char :: (later.content ++ later.terminator)) = _
              rw [closing, if_neg notBel, sameHead, if_neg notString,
                inductionHypothesis laterFound]
              rfl

/-- A string that was open is part of the string that is found later. -/
theorem isPrefix_of_closing_append {text more : List Char} {closed : Closing}
    (isOpen : closing text = none) (found : closing (text ++ more) = some closed) :
    text <+: closed.content ++ closed.terminator := by
  induction text generalizing closed with
  | nil => exact List.nil_prefix
  | cons char rest inductionHypothesis =>
      rw [closing] at isOpen
      rw [List.cons_append, closing] at found
      split at isOpen
      · cases isOpen
      · next notBel =>
          rw [if_neg notBel] at found
          split at isOpen
          · cases isOpen
          · next notString =>
              split at found
              · next isString =>
                  cases found
                  obtain ⟨rfl, follows⟩ := isString
                  -- only the last `ESC` of the text can be completed later
                  cases rest with
                  | nil => exact ⟨['\\'], rfl⟩
                  | cons next others => exact absurd ⟨rfl, follows⟩ notString
              · obtain ⟨later, laterFound, rfl⟩ := Option.map_eq_some_iff.mp found
                have within := inductionHypothesis (Option.map_eq_none_iff.mp isOpen) laterFound
                exact (List.cons_prefix_cons).mpr ⟨rfl, within⟩

/-- The string from its content on: to its terminator, or to the end of the text. -/
def stringBody (text : List Char) : List Char :=
  match closing text with
  | some closed => closed.content ++ closed.terminator
  | none => text

theorem isPrefix_stringBody {text : List Char} (isOpen : closing text = none)
    (more : List Char) : text <+: stringBody (text ++ more) := by
  unfold stringBody
  split
  · next closed found => exact isPrefix_of_closing_append isOpen found
  · exact List.prefix_append text more

/-- The string only grows while the text goes on. -/
theorem stringBody_isPrefix_append (text more : List Char) :
    stringBody text <+: stringBody (text ++ more) := by
  cases found : closing text with
  | none =>
      have whole : stringBody text = text := by simp [stringBody, found]
      rw [whole]
      exact isPrefix_stringBody found more
  | some closed => simp [stringBody, found, closing_append found more]

theorem stringBody_isPrefix (text : List Char) : stringBody text <+: text := by
  unfold stringBody
  split
  · next closed found => exact ⟨closed.rest, by rw [List.append_assoc, ← closing_eq found]⟩
  · exact List.prefix_rfl

theorem byteLength_stringBody_le (text : List Char) :
    byteLength (stringBody text) ≤ byteLength text :=
  byteLength_le_of_isPrefix (stringBody_isPrefix text)

theorem byteLength_stringBody_append (text more : List Char) :
    byteLength (stringBody text) ≤ byteLength (stringBody (text ++ more)) :=
  byteLength_le_of_isPrefix (stringBody_isPrefix_append text more)

/-! ## Two searches make one -/

/-- The choice between the first `BEL` and the first `ESC \`. -/
def nearer (bells strings : Option (List Char × List Char)) : Option Closing :=
  match bells, strings with
  | some bell, some string =>
      if bell.1.length ≤ string.1.length then
        some { content := bell.1, terminator := [bel], rest := bell.2 }
      else some { content := string.1, terminator := stringTerminator, rest := string.2 }
  | some bell, none => some { content := bell.1, terminator := [bel], rest := bell.2 }
  | none, some string =>
      some { content := string.1, terminator := stringTerminator, rest := string.2 }
  | none, none => none

theorem nearer_push (char : Char) (bells strings : Option (List Char × List Char)) :
    nearer (bells.map fun found => (char :: found.1, found.2))
        (strings.map fun found => (char :: found.1, found.2)) =
      (nearer bells strings).map (Closing.push char) := by
  cases bells <;> cases strings <;> simp [nearer, Closing.push]
  split <;> rfl

theorem nearer_findText (text : List Char) :
    nearer (findText [bel] text) (findText stringTerminator text) = closing text := by
  induction text with
  | nil => rfl
  | cons char rest inductionHypothesis =>
      rw [closing]
      split
      · next isBel =>
          subst isBel
          have found : findText [bel] (bel :: rest) = some ([], rest) :=
            findText_append_self (by simp) rest
          rw [found]
          cases findText stringTerminator (bel :: rest) <;> simp [nearer]
      · next notBel =>
          have skipsBel : findText [bel] (char :: rest) =
              (findText [bel] rest).map fun found => (char :: found.1, found.2) := by
            rw [findText, if_neg (by simpa using Ne.symm notBel)]
          split
          · next isString =>
              obtain ⟨rfl, follows⟩ := isString
              obtain ⟨later, rfl⟩ := List.head?_eq_some_iff.mp follows
              have found : findText stringTerminator (esc :: '\\' :: later) = some ([], later) :=
                findText_append_self (by simp [stringTerminator]) later
              rw [skipsBel, found]
              cases findText [bel] ('\\' :: later) <;> simp [nearer]
          · next notString =>
              have skipsString : findText stringTerminator (char :: rest) =
                  (findText stringTerminator rest).map fun found => (char :: found.1, found.2) := by
                rw [findText, if_neg]
                rintro ⟨after, isText⟩
                cases isText
                exact notString ⟨rfl, rfl⟩
              rw [skipsBel, skipsString, nearer_push, inductionHypothesis]

/-- The two kinds of terminators never start at the same place. -/
theorem findText_terminators_ne {text : List Char} {bell string : List Char × List Char}
    (bellFound : findText [bel] text = some bell)
    (stringFound : findText stringTerminator text = some string) :
    bell.1.length ≠ string.1.length := by
  intro same
  have both := (findText_eq bellFound).symm.trans (findText_eq stringFound)
  have heads := (List.append_inj both same).2
  simp [stringTerminator, bel, esc] at heads

end Yggterm.Reader
