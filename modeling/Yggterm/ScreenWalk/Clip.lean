import Yggterm.ScreenWalk.Lossless

/-!
# Clipping a screen

`clip_formatted_screen_to_width` leaves out the characters that reach past the edge.  The walk
over what is left, at the new width, is compared with the walk over the whole text: a wide
character that stood across the edge leaves a free cell behind, into which a narrow one slides.
-/

namespace Yggterm.ScreenWalk

open Reader (esc bel)
open Text Utf8

/-- What the clipping writes of a step. -/
def Step.clipped (cols : Nat) : Step → List Char
  | control text => text
  | print char col width => if saturatingAdd col width - 1 ≤ cols then [char] else []

def clipFormattedScreenToWidth (screenText : List Char) (gridCols cols : Nat) :
    Option (List Char) :=
  if cols = 0 then some screenText
  else (walkFormattedScreen screenText gridCols).map (List.flatMap (Step.clipped cols))

/-- A control sequence, or a character whose cells stay within the edge. -/
def Step.fits (cols : Nat) : Step → Bool
  | control _ => true
  | print _ col width => col + width ≤ cols + 1

/-- The clipped text has the steps that fit, at the columns they had. -/
def ClipsInPlace (screenText : List Char) (gridCols cols : Nat) : Prop :=
  ∃ steps clipped, walkFormattedScreen screenText gridCols = some steps ∧
    clipFormattedScreenToWidth screenText gridCols cols = some clipped ∧
    clipped = (steps.filter (Step.fits cols)).flatMap Step.text ∧
    walkFormattedScreen clipped cols = some (steps.filter (Step.fits cols))

/-- What a control sequence does to the column. -/
inductive Motion where
  | stays
  | sets (col : Nat)
  | forward (count : Nat)
  | back (count : Nat)
  deriving DecidableEq

def Motion.apply : Motion → Nat → Nat
  | stays, col => col
  | sets target, _ => target
  | forward count, col => saturatingAdd col count
  | back count, col => max (col - count) 1

def motionOfCsi (params : List Char) (final : Option UInt8) : Motion :=
  if final = some 0x48 ∨ final = some 0x66 then .sets (count (params.splitOn ';')[1]?)
  else if final = some 0x43 then .forward (count (some params))
  else if final = some 0x47 then .sets (count (some params))
  else if final = some 0x44 then .back (count (some params))
  else .stays

def motion (text : List Char) : Motion :=
  if text = ['\n'] ∨ text = ['\r'] then .sets 1
  else if isCsi text then
    ((csiParams text).map fun params =>
      motionOfCsi params (encode text)[loopEnd isAsciiAlphabetic text]?).getD .stays
  else .stays

theorem columnOf_eq (text : List Char) (col : Nat) :
    columnOf text col = (motion text).apply col := by
  unfold columnOf motion columnAfter
  split_ifs
  · rfl
  · cases csiParams text with
    | none => rfl
    | some params =>
        simp only [Option.map_some, Option.getD_some]
        unfold columnAfterCsi motionOfCsi
        split_ifs <;> rfl
  · rfl

theorem count_pos (params : Option (List Char)) : 1 ≤ count params := le_max_right _ _

/-- A sequence moves the cursor on by one column or more. -/
theorem pos_of_motion_eq_forward {text : List Char} {count : Nat}
    (forward : motion text = .forward count) : 1 ≤ count := by
  have counted : ∀ params final, motionOfCsi params final = .forward count → 1 ≤ count := by
    intro params final isForward
    unfold motionOfCsi at isForward
    split_ifs at isForward
    cases isForward
    exact count_pos _
  unfold motion at forward
  split_ifs at forward
  cases found : csiParams text with
  | none =>
      rw [found] at forward
      cases forward
  | some params =>
      rw [found] at forward
      exact counted _ _ forward

/-- `CSI D` -/
def isCursorLeft (text : List Char) : Bool := isCsi text && text.getLast? = some 'D'

def Step.goesLeft : Step → Bool
  | control text => isCursorLeft text
  | print _ _ _ => false

/-- Behind a wide character across the edge, a narrow one is the next that stays, before the
cursor moves. -/
def slides (cols : Nat) : Bool → List Step → Bool
  | _, [] => false
  | gap, .control text :: rest => slides cols (gap && motion text = .stays) rest
  | gap, .print _ col width :: rest =>
      if col + width ≤ cols + 1 then (gap && width = 1) || slides cols false rest
      else slides cols (gap || col ≤ cols) rest

def Step.token : Step → Token
  | control text => .control text
  | print char _ _ => .print char

/-- How the column in the clipped text goes with the one in the whole text: they are the same, or
both beyond the edge, or a wide character has left a free cell at the edge. -/
inductive Aligned (cols : Nat) : Bool → Nat → Nat → Prop
  | same (col : Nat) : Aligned cols false col col
  | beyond {col clippedCol : Nat} (outside : cols < col) (alsoOutside : cols < clippedCol) :
      Aligned cols false col clippedCol
  | gap {col : Nat} (behind : cols + 2 ≤ col) : Aligned cols true col cols

section Columns

variable {gridCols cols : Nat}

theorem landing_of_lt {col width : Nat} (positive : 0 < gridCols)
    (exceeds : gridCols < saturatingAdd col width - 1) : landing gridCols col width = 1 :=
  if_pos ⟨positive, exceeds⟩

theorem landing_of_le {col width : Nat} (within : saturatingAdd col width - 1 ≤ gridCols) :
    landing gridCols col width = col :=
  if_neg fun exceeds => Nat.not_lt.mpr within exceeds.2

theorem width_cases (char : Char) :
    formattedScreenCellWidth char = 1 ∨ formattedScreenCellWidth char = 2 := by
  unfold formattedScreenCellWidth
  dsimp only
  split_ifs
  · exact .inr rfl
  · exact .inl rfl

theorem Aligned.apply {gap : Bool} {col clippedCol : Nat}
    (aligned : Aligned cols gap col clippedCol) (small : cols + 2 < 2 ^ 16) {motion : Motion}
    (forward : ∀ count, motion = .forward count → 1 ≤ count)
    (notBack : ∀ count, motion ≠ .back count) :
    Aligned cols (gap && motion = .stays) (motion.apply col) (motion.apply clippedCol) := by
  cases motion with
  | stays => simpa [Motion.apply] using aligned
  | sets target => simpa [Motion.apply] using Aligned.same target
  | forward count =>
      have positive := forward count rfl
      simp only [Motion.apply, reduceCtorEq, decide_false, Bool.and_false]
      cases aligned with
      | same => exact .same _
      | beyond outside alsoOutside =>
          refine .beyond ?_ ?_ <;> (unfold saturatingAdd; omega)
      | gap behind =>
          refine .beyond ?_ ?_ <;> (unfold saturatingAdd; omega)
  | back count => exact absurd rfl (notBack count)

/-- A character in both walks, when the whole one does not wrap. -/
theorem Aligned.print {gap : Bool} {col clippedCol width : Nat}
    (aligned : Aligned cols gap col clippedCol) (small : cols + 2 < 2 ^ 16)
    (narrowOrWide : width = 1 ∨ width = 2)
    (outside : ¬ col + width ≤ cols + 1) :
    Aligned cols (gap || col ≤ cols) (saturatingAdd col width) clippedCol := by
  cases aligned with
  | same =>
      by_cases straddles : col ≤ cols
      · obtain rfl : col = cols := by omega
        simp only [straddles, decide_true, Bool.or_true]
        exact .gap (by unfold saturatingAdd; omega)
      · simp only [straddles, decide_false, Bool.or_false]
        exact .beyond (by unfold saturatingAdd; omega) (by omega)
  | beyond isOutside alsoOutside =>
      simp only [Nat.not_le.mpr isOutside, decide_false, Bool.or_false]
      exact .beyond (by unfold saturatingAdd; omega) alsoOutside
  | gap behind =>
      rw [Bool.true_or]
      exact .gap (by unfold saturatingAdd; omega)

/-- Where the whole walk wraps, so does the other one, unless the free cell takes the character. -/
theorem Aligned.wraps {gap : Bool} {col clippedCol width : Nat}
    (aligned : Aligned cols gap col clippedCol) (two : 2 ≤ cols) (narrower : cols ≤ gridCols)
    (small : cols + 2 < 2 ^ 16) (narrowOrWide : width = 1 ∨ width = 2)
    (exceeds : gridCols < saturatingAdd col width - 1) (noSlide : ¬ (gap = true ∧ width = 1)) :
    landing cols clippedCol width = 1 := by
  refine landing_of_lt (by omega) ?_
  unfold saturatingAdd at exceeds ⊢
  cases aligned with
  | same => omega
  | beyond outside alsoOutside => omega
  | gap behind =>
      have notNarrow : width ≠ 1 := fun narrow => noSlide ⟨rfl, narrow⟩
      omega

theorem filter_control (text : List Char) (steps : List Step) :
    (Step.control text :: steps).filter (Step.fits cols) =
      .control text :: steps.filter (Step.fits cols) :=
  List.filter_cons_of_pos rfl

theorem filter_print_of_fits {col width : Nat} (inside : col + width ≤ cols + 1) (char : Char)
    (steps : List Step) : (Step.print char col width :: steps).filter (Step.fits cols) =
      .print char col width :: steps.filter (Step.fits cols) :=
  List.filter_cons_of_pos (decide_eq_true inside)

theorem filter_print_of_not_fits {col width : Nat} (outside : ¬ col + width ≤ cols + 1)
    (char : Char) (steps : List Step) :
    (Step.print char col width :: steps).filter (Step.fits cols) =
      steps.filter (Step.fits cols) :=
  List.filter_cons_of_neg fun inside => outside (of_decide_eq_true inside)

/-- Walking what fits at the new width gives the same columns exactly when nothing slides. -/
theorem place_filter_iff (two : 2 ≤ cols) (narrower : cols ≤ gridCols) (small : cols + 2 < 2 ^ 16)
    {tokens : List Token}
    (notBack : ∀ text, .control text ∈ tokens → ∀ count, motion text ≠ .back count)
    {gap : Bool} {col clippedCol : Nat} (aligned : Aligned cols gap col clippedCol) :
    place cols clippedCol (((place gridCols col tokens).filter (Step.fits cols)).map Step.token) =
        (place gridCols col tokens).filter (Step.fits cols) ↔
      slides cols gap (place gridCols col tokens) = false := by
  induction tokens generalizing gap col clippedCol with
  | nil => simp [place, slides]
  | cons token rest inductionHypothesis =>
      have later := @inductionHypothesis fun text member =>
        notBack text (List.mem_cons_of_mem _ member)
      cases token with
      | control text =>
          have next := aligned.apply small (fun _ => pos_of_motion_eq_forward)
            (notBack text List.mem_cons_self)
          rw [place, filter_control, List.map_cons, Step.token, place, List.cons.injEq, slides,
            columnOf_eq, columnOf_eq]
          simp only [true_and]
          exact later next
      | print char =>
          have narrowOrWide := width_cases char
          rw [place]
          generalize widthIs : formattedScreenCellWidth char = width at narrowOrWide
          by_cases wraps : gridCols < saturatingAdd col width - 1
          · have inside : 1 + width ≤ cols + 1 := by omega
            rw [landing_of_lt (by omega) wraps, filter_print_of_fits inside, List.map_cons,
              Step.token, place, slides, if_pos inside, widthIs, List.cons.injEq]
            by_cases slid : gap = true ∧ width = 1
            · -- The free cell at the edge takes the character.
              obtain ⟨rfl, rfl⟩ := slid
              cases aligned with
              | gap behind =>
                  have stays : landing cols cols 1 = cols :=
                    landing_of_le (by unfold saturatingAdd; omega)
                  simp only [stays, Step.print.injEq, true_and, and_true, decide_true,
                    Bool.and_true,
                    Bool.true_or, Bool.true_eq_false, iff_false]
                  omega
            · have wrapsToo := aligned.wraps two narrower small narrowOrWide wraps slid
              have noSlide : (gap && decide (width = 1)) = false := by simpa using slid
              rw [wrapsToo, noSlide, Bool.false_or]
              simp only [true_and]
              exact later (.same _)
          · rw [landing_of_le (Nat.not_lt.mp wraps)]
            by_cases inside : col + width ≤ cols + 1
            · cases aligned with
              | same =>
                  have stays : landing cols col width = col :=
                    landing_of_le (by unfold saturatingAdd; omega)
                  rw [filter_print_of_fits inside, List.map_cons, Step.token, place, slides,
                    if_pos inside, widthIs, List.cons.injEq, stays]
                  simp only [true_and, Bool.false_and, Bool.false_or]
                  exact later (.same _)
              | beyond outside alsoOutside => omega
              | gap behind => omega
            · rw [filter_print_of_not_fits inside, slides, if_neg inside]
              exact later (aligned.print small narrowOrWide inside)

/-- On a screen of the greatest widths nothing wraps. -/
theorem place_eq_of_large {first second : Nat} (firstLarge : 2 ^ 16 - 2 ≤ first)
    (secondLarge : 2 ^ 16 - 2 ≤ second) (col : Nat) (tokens : List Token) :
    place first col tokens = place second col tokens := by
  induction tokens generalizing col with
  | nil => rfl
  | cons token rest inductionHypothesis =>
      cases token with
      | control text => rw [place, place, inductionHypothesis]
      | print char =>
          have lands : ∀ grid width, 2 ^ 16 - 2 ≤ grid → landing grid col width = col :=
            fun grid width large => landing_of_le (by unfold saturatingAdd; omega)
          rw [place, place, lands first _ firstLarge, lands second _ secondLarge,
            inductionHypothesis]

end Columns

end Yggterm.ScreenWalk
