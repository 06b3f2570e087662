import Yggterm.Library.Text
import Yggterm.Library.Tokens
import Yggterm.Reader.Osc

/-!
# Title sequences

A terminal title is set by `ESC ] 0 ;` or `ESC ] 2 ;`, a payload and a terminator.  The
payload holds neither terminator, so complete title sequences never overlap, and the
titles of a text are the same however the text is cut.
-/

namespace Yggterm.Reader

open Text

/-- The number that a run of digits writes. -/
def decimal (digits : List Char) : Nat :=
  digits.foldl (fun value digit => 10 * value + (digit.toNat - '0'.toNat)) 0

theorem esc_not_mem_digits {number : List Char} (digits : ∀ char ∈ number, char.isDigit = true) :
    esc ∉ number := by
  intro member
  have isDigit := digits esc member
  simp [esc, Char.isDigit] at isDigit

/-- A complete OSC 0 or OSC 2 sequence. -/
structure TitleSequence where
  number : List Char
  payload : List Char
  terminator : List Char
  digits : ∀ char ∈ number, char.isDigit = true
  setsTitle : number ≠ [] ∧ (decimal number = 0 ∨ decimal number = 2)
  clean : bel ∉ payload ∧ esc ∉ payload
  closes : terminator = [bel] ∨ terminator = stringTerminator

namespace TitleSequence

def text (sequence : TitleSequence) : List Char :=
  esc :: ']' :: (sequence.number ++ ';' :: (sequence.payload ++ sequence.terminator))

theorem text_ne_nil (sequence : TitleSequence) : sequence.text ≠ [] :=
  List.cons_ne_nil _ _

/-- Behind its first letter a sequence has no escape but that of its terminator. -/
theorem eq_of_escape_inside (sequence : TitleSequence) {before after : List Char}
    (isText : sequence.text = before ++ esc :: after) (nonempty : before ≠ []) :
    after = ['\\'] := by
  obtain ⟨first, rest, rfl⟩ := List.exists_cons_of_ne_nil nonempty
  have inner : (']' :: (sequence.number ++ ';' :: sequence.payload)) ++ sequence.terminator =
      rest ++ esc :: after := by
    have tails := (List.cons.inj isText).2
    simpa using tails
  have innerClean : esc ∉ ']' :: (sequence.number ++ ';' :: sequence.payload) := by
    simp only [List.mem_cons, List.mem_append, not_or]
    exact ⟨by decide, esc_not_mem_digits sequence.digits, by decide, sequence.clean.2⟩
  have inTerminator : ∃ skipped, sequence.terminator = skipped ++ esc :: after := by
    rcases List.append_eq_append_iff.mp inner with
      ⟨skipped, _, isTerminator⟩ | ⟨skipped, isInner, isRest⟩
    · exact ⟨skipped, isTerminator⟩
    · cases skipped with
      | nil => exact ⟨[], by simpa using isRest.symm⟩
      | cons letter others =>
          obtain rfl : esc = letter := (List.cons.inj isRest).1
          rw [isInner] at innerClean
          simp at innerClean
  obtain ⟨skipped, isTerminator⟩ := inTerminator
  rcases sequence.closes with isBel | isString
  · rw [isBel] at isTerminator
    have member : esc ∈ [bel] := by
      rw [isTerminator]
      simp
    exact absurd member (by decide)
  · rw [isString, stringTerminator] at isTerminator
    cases skipped with
    | nil => exact (List.cons.inj isTerminator).2.symm
    | cons letter others =>
        have member : esc ∈ ['\\'] := by
          rw [(List.cons.inj isTerminator).2]
          simp
        exact absurd member (by decide)

end TitleSequence

/-! ## The title a text begins with -/

/-- The payload up to the first terminator, and what follows that; any other escape
breaks it off. -/
def titlePayload : List Char → Option (List Char × List Char)
  | [] => none
  | char :: rest =>
      if char = bel then some ([], rest)
      else if char = esc then
        if rest.head? = some '\\' then some ([], rest.tail) else none
      else (titlePayload rest).map fun found => (char :: found.1, found.2)

/-- The payload of the title sequence at the front, and what follows it. -/
def titleAt : List Char → Option (List Char × List Char)
  | first :: second :: body =>
      let number := body.takeWhile Char.isDigit
      if first = esc ∧ second = ']' ∧ (number ≠ [] ∧ (decimal number = 0 ∨ decimal number = 2)) ∧
          (body.dropWhile Char.isDigit).head? = some ';' then
        titlePayload (body.dropWhile Char.isDigit).tail
      else none
  | _ => none

theorem titlePayload_append {payload terminator : List Char}
    (clean : bel ∉ payload ∧ esc ∉ payload)
    (closes : terminator = [bel] ∨ terminator = stringTerminator) (after : List Char) :
    titlePayload (payload ++ (terminator ++ after)) = some (payload, after) := by
  induction payload with
  | nil =>
      rcases closes with rfl | rfl
      · rfl
      · rfl
  | cons char rest inductionHypothesis =>
      simp only [List.mem_cons, not_or] at clean
      have later := inductionHypothesis ⟨clean.1.2, clean.2.2⟩
      rw [List.cons_append, titlePayload, if_neg (Ne.symm clean.1.1), if_neg (Ne.symm clean.2.1),
        later]
      rfl

theorem titlePayload_eq_some {text payload after : List Char}
    (found : titlePayload text = some (payload, after)) :
    ∃ terminator, text = payload ++ (terminator ++ after) ∧ (bel ∉ payload ∧ esc ∉ payload) ∧
      (terminator = [bel] ∨ terminator = stringTerminator) := by
  induction text generalizing payload with
  | nil => cases found
  | cons char rest inductionHypothesis =>
      rw [titlePayload] at found
      split at found
      · next isBel =>
          cases found
          exact ⟨[bel], by rw [isBel]; rfl, by simp, Or.inl rfl⟩
      · next notBel =>
          split at found
          · next isEsc =>
              split at found
              · next follows =>
                  cases found
                  obtain ⟨later, rfl⟩ := List.head?_eq_some_iff.mp follows
                  exact ⟨stringTerminator, by rw [isEsc]; rfl, by simp, Or.inr rfl⟩
              · cases found
          · next notEsc =>
              obtain ⟨⟨laterPayload, laterAfter⟩, laterFound, isFound⟩ :=
                Option.map_eq_some_iff.mp found
              cases isFound
              obtain ⟨terminator, isRest, clean, closes⟩ := inductionHypothesis laterFound
              refine ⟨terminator, by rw [isRest]; rfl, ?_, closes⟩
              simp only [List.mem_cons, not_or]
              exact ⟨⟨Ne.symm notBel, clean.1⟩, ⟨Ne.symm notEsc, clean.2⟩⟩

/-- The digits in front of something that is not one. -/
theorem takeWhile_digits {number rest : List Char} (digits : ∀ char ∈ number, char.isDigit = true)
    (ends : rest.head?.all fun char => !char.isDigit) :
    (number ++ rest).takeWhile Char.isDigit = number ∧
      (number ++ rest).dropWhile Char.isDigit = rest := by
  have stops : rest.takeWhile Char.isDigit = [] ∧ rest.dropWhile Char.isDigit = rest := by
    cases rest with
    | nil => exact ⟨rfl, rfl⟩
    | cons char others =>
        have notDigit : ¬ char.isDigit = true := by simpa using ends
        exact ⟨List.takeWhile_cons_of_neg notDigit, List.dropWhile_cons_of_neg notDigit⟩
  constructor
  · rw [List.takeWhile_append_of_pos digits, stops.1, List.append_nil]
  · rw [List.dropWhile_append_of_pos digits, stops.2]

theorem titleAt_text (sequence : TitleSequence) (after : List Char) :
    titleAt (sequence.text ++ after) = some (sequence.payload, after) := by
  have shape : sequence.text ++ after = esc :: ']' :: (sequence.number ++
      ';' :: (sequence.payload ++ (sequence.terminator ++ after))) := by
    simp [TitleSequence.text]
  obtain ⟨taken, dropped⟩ := takeWhile_digits sequence.digits (rfl :
    ((';' :: (sequence.payload ++ (sequence.terminator ++ after))).head?.all
      fun char => !char.isDigit) = true)
  rw [shape, titleAt, taken, dropped, if_pos ⟨rfl, rfl, sequence.setsTitle, rfl⟩]
  exact titlePayload_append sequence.clean sequence.closes after

theorem titleAt_eq_some {text payload after : List Char}
    (found : titleAt text = some (payload, after)) :
    ∃ sequence : TitleSequence, text = sequence.text ++ after ∧ sequence.payload = payload := by
  rcases text with _ | ⟨first, _ | ⟨second, body⟩⟩
  · cases found
  · cases found
  · rw [titleAt] at found
    split at found
    · next opens =>
        obtain ⟨rfl, rfl, setsTitle, separated⟩ := opens
        obtain ⟨later, isLater⟩ := List.head?_eq_some_iff.mp separated
        rw [isLater, List.tail_cons] at found
        obtain ⟨terminator, isText, clean, closes⟩ := titlePayload_eq_some found
        have digits : ∀ char ∈ body.takeWhile Char.isDigit, char.isDigit = true :=
          fun char member => List.mem_takeWhile_imp member
        refine ⟨⟨_, payload, terminator, digits, setsTitle, clean, closes⟩, ?_, rfl⟩
        have parts := List.takeWhile_append_dropWhile (p := Char.isDigit) (l := body)
        rw [isLater, isText] at parts
        simp only [TitleSequence.text, List.cons_append, List.append_assoc, parts]
    · cases found

theorem titleAt_append {text payload after : List Char}
    (found : titleAt text = some (payload, after)) (more : List Char) :
    titleAt (text ++ more) = some (payload, after ++ more) := by
  obtain ⟨sequence, rfl, rfl⟩ := titleAt_eq_some found
  rw [List.append_assoc]
  exact titleAt_text sequence (after ++ more)

/-- No sequence begins inside another. -/
theorem TitleSequence.isPrefix_of_text_behind (sequence other : TitleSequence)
    {before after otherAfter : List Char} (nonempty : before ≠ [])
    (overlap : before ++ (other.text ++ otherAfter) = sequence.text ++ after) :
    sequence.text <+: before := by
  rcases List.append_eq_append_iff.mp overlap with ⟨inside, isText, isOther⟩ | ⟨inside, isBefore, _⟩
  · cases inside with
    | nil => exact ⟨[], by simpa using isText⟩
    | cons letter rest =>
        obtain rfl : esc = letter := (List.cons.inj isOther).1
        obtain rfl := sequence.eq_of_escape_inside isText nonempty
        have brackets : ']' = '\\' := (List.cons.inj (List.cons.inj isOther).2).1
        exact absurd brackets (by decide)
  · exact ⟨inside, isBefore.symm⟩

/-! ## The titles of a text -/

/-- Complete title sequences are taken off a text one after another. -/
def titles : Tokenizer Char (List Char) where
  next := firstToken titleAt
  shrinks := by
    intro text payload after taken
    obtain ⟨before, later, rfl, found⟩ := exists_of_firstToken taken
    obtain ⟨sequence, rfl, _⟩ := titleAt_eq_some found
    have positive := List.length_pos_iff.mpr sequence.text_ne_nil
    simp only [List.length_append]
    omega
  stable := by
    intro text payload after taken more
    induction text with
    | nil => cases taken
    | cons char rest inductionHypothesis =>
        cases here : titleAt (char :: rest) with
        | some found =>
            rw [firstToken_of_some here] at taken
            cases taken
            exact firstToken_of_some (titleAt_append here more)
        | none =>
            rw [firstToken_of_none here] at taken
            have stillNot : titleAt (char :: (rest ++ more)) = none := by
              by_contra isTitle
              obtain ⟨⟨otherPayload, otherAfter⟩, begun⟩ := Option.ne_none_iff_exists'.mp isTitle
              obtain ⟨sequence, isText, _⟩ := titleAt_eq_some begun
              obtain ⟨before, later, rfl, found⟩ := exists_of_firstToken taken
              obtain ⟨other, rfl, _⟩ := titleAt_eq_some found
              have complete := sequence.isPrefix_of_text_behind other
                (List.cons_ne_nil char before) (by simpa using isText)
              obtain ⟨between, isBefore⟩ := complete
              have whole : char :: (before ++ (other.text ++ after)) =
                  sequence.text ++ (between ++ (other.text ++ after)) := by
                rw [← List.cons_append, ← isBefore, List.append_assoc]
              rw [whole, titleAt_text] at here
              cases here
            rw [List.cons_append, firstToken_of_none stillNot]
            exact inductionHypothesis taken

theorem titles_front (text payload after : List Char)
    (taken : titles.next text = some (payload, after)) : after <:+ text := by
  obtain ⟨before, later, rfl, found⟩ := exists_of_firstToken taken
  obtain ⟨sequence, rfl, _⟩ := titleAt_eq_some found
  exact ⟨before ++ sequence.text, by rw [List.append_assoc]⟩

/-- The last title that is not blank. -/
def newest (payloads : List (List Char)) : Option (List Char) :=
  ((payloads.map trim).filter fun title => decide (title ≠ [])).getLast?

def newestTitle (text : List Char) : Option (List Char) :=
  newest (titles.drain text).1

theorem newest_append (first second : List (List Char)) :
    newest (first ++ second) = (newest second).or (newest first) := by
  simp [newest, List.getLast?_append]

theorem newest_cons (payload : List Char) (rest : List (List Char)) :
    newest (payload :: rest) =
      (newest rest).or (if trim payload = [] then none else some (trim payload)) := by
  rw [← List.singleton_append, newest_append]
  congr 1
  by_cases blank : trim payload = []
  · simp [newest, blank]
  · simp [newest, blank]

end Yggterm.Reader
