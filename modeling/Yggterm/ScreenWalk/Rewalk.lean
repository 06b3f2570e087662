import Yggterm.ScreenWalk.Clip

/-!
# Walking a clipped screen

The text that the clipping writes has the tokens that were kept, so that the walk over it places
just these.
-/

namespace Yggterm.ScreenWalk

open Reader (esc bel)
open Text Utf8

/-- Tokens of which some printed characters are left out. -/
inductive Thins : List Token → List Token → Prop
  | nil : Thins [] []
  | keep (token : Token) {tokens kept : List Token} (thins : Thins tokens kept) :
      Thins (token :: tokens) (token :: kept)
  | drop (char : Char) {tokens kept : List Token} (thins : Thins tokens kept) :
      Thins (.print char :: tokens) kept

theorem thins_place (gridCols cols col : Nat) (tokens : List Token) :
    Thins tokens (((place gridCols col tokens).filter (Step.fits cols)).map Step.token) := by
  induction tokens generalizing col with
  | nil => exact .nil
  | cons token rest inductionHypothesis =>
      cases token with
      | control text =>
          rw [place, filter_control]
          exact .keep _ (inductionHypothesis _)
      | print char =>
          rw [place]
          by_cases inside : landing gridCols col (formattedScreenCellWidth char) +
              formattedScreenCellWidth char ≤ cols + 1
          · rw [filter_print_of_fits inside]
            exact .keep _ (inductionHypothesis _)
          · rw [filter_print_of_not_fits inside]
            exact .drop char (inductionHypothesis _)

theorem Thins.control {text : List Char} {tokens kept : List Token}
    (thins : Thins (.control text :: tokens) kept) :
    ∃ later, kept = .control text :: later ∧ Thins tokens later := by
  cases thins with
  | keep _ thins => exact ⟨_, rfl, thins⟩

theorem Lexes.eq_nil {tokens : List Token} (lexes : Lexes [] tokens) : tokens = [] := by
  cases lexes
  rfl

/-- A cut before what is kept. -/
theorem Cut.continued {stops : UInt8 → Bool} {front tail : List Char} (cut : Cut stops front tail)
    {tokens kept : List Token} (later : Lexes (tail.drop 1) tokens) (thins : Thins tokens kept) :
    Cut stops front (tail.take 1 ++ kept.flatMap Token.text) ∧
      (tail.take 1 ++ kept.flatMap Token.text).take 1 = tail.take 1 ∧
      (tail.take 1 ++ kept.flatMap Token.text).drop 1 = kept.flatMap Token.text := by
  cases tail with
  | nil =>
      have none := later.eq_nil
      subst none
      cases thins
      exact ⟨cut, rfl, rfl⟩
  | cons last after => exact ⟨⟨cut.clean, cut.ends⟩, rfl, rfl⟩

/-- The kept tokens are the tokens of their text. -/
theorem Lexes.thin {text : List Char} {tokens kept : List Token} (lexes : Lexes text tokens)
    (thins : Thins tokens kept) : Lexes (kept.flatMap Token.text) kept := by
  induction lexes generalizing kept with
  | nil =>
      cases thins
      exact .nil
  | @csi params tail tokens cut later inductionHypothesis =>
      obtain ⟨after, rfl, restThins⟩ := thins.control
      obtain ⟨newCut, sameEnd, behind⟩ := cut.continued later restThins
      have lexed := inductionHypothesis restThins
      rw [← behind] at lexed
      have whole := Lexes.csi newCut lexed
      rw [sameEnd] at whole
      simpa only [List.flatMap_cons, Token.text, List.cons_append, List.append_assoc] using whole
  | @osc content tail tokens cut later inductionHypothesis =>
      obtain ⟨after, rfl, restThins⟩ := thins.control
      obtain ⟨newCut, sameEnd, behind⟩ := cut.continued later restThins
      have lexed := inductionHypothesis restThins
      rw [← behind] at lexed
      have whole := Lexes.osc newCut lexed
      rw [sameEnd] at whole
      simpa only [List.flatMap_cons, Token.text, List.cons_append, List.append_assoc] using whole
  | pair isAscii notCsi notOsc later inductionHypothesis =>
      obtain ⟨after, rfl, restThins⟩ := thins.control
      exact .pair isAscii notCsi notOsc (inductionHypothesis restThins)
  | last =>
      obtain ⟨after, rfl, restThins⟩ := thins.control
      cases restThins
      exact .last
  | line isLine later inductionHypothesis =>
      obtain ⟨after, rfl, restThins⟩ := thins.control
      exact .line isLine (inductionHypothesis restThins)
  | char notEsc notLine later inductionHypothesis =>
      cases thins with
      | keep _ restThins => exact .char notEsc notLine (inductionHypothesis restThins)
      | drop _ restThins => exact inductionHypothesis restThins

theorem motion_of_not_csi {text : List Char} (notCsi : isCsi text = false) (count : Nat) :
    motion text ≠ .back count := by
  unfold motion
  split_ifs with isLine isCsi
  · exact fun impossible => by cases impossible
  · rw [notCsi] at isCsi
    cases isCsi
  · exact fun impossible => by cases impossible

theorem eq_of_ofNat_eq {char other : Char} (isAscii : char.toNat < 0x80)
    (otherAscii : other.toNat < 0x80)
    (same : UInt8.ofNat char.toNat = UInt8.ofNat other.toNat) : char = other := by
  have sameCode := congrArg UInt8.toNat same
  rw [toNat_ofNat_of_lt (by omega), toNat_ofNat_of_lt (by omega)] at sameCode
  exact Char.toNat_inj.mp sameCode

theorem Cut.motion_eq {params tail : List Char} (cut : Cut isAsciiAlphabetic params tail) :
    motion (esc :: '[' :: (params ++ tail.take 1)) =
      motionOfCsi params (tail.head?.map fun char => UInt8.ofNat char.toNat) := by
  have sameHead : (tail.take 1).head? = tail.head? := by cases tail <;> rfl
  rw [motion, if_neg (by simp), if_pos (by simp [isCsi_esc]), csiParams_eq cut.take,
    getElem?_loopEnd cut.take, sameHead]
  rfl

/-- A CSI sequence that goes back ends with its `D`. -/
theorem Cut.isCursorLeft {params tail : List Char} (cut : Cut isAsciiAlphabetic params tail)
    {count : Nat} (back : motion (esc :: '[' :: (params ++ tail.take 1)) = .back count) :
    isCursorLeft (esc :: '[' :: (params ++ tail.take 1)) = true := by
  rw [cut.motion_eq] at back
  cases tail with
  | nil => cases back
  | cons last after =>
      have isAscii := isAscii_of_stopsAt (cut.ends last rfl)
      have isD : UInt8.ofNat last.toNat = UInt8.ofNat 'D'.toNat := by
        simp only [List.head?_cons, Option.map_some, motionOfCsi, Option.some.injEq] at back
        split_ifs at back with _ _ _ isD
        exact isD
      have last_eq : last = 'D' := eq_of_ofNat_eq isAscii (by decide) isD
      subst last_eq
      simp [ScreenWalk.isCursorLeft, isCsi_esc, List.getLast?_cons]

/-- Only `CSI D` goes back. -/
theorem Lexes.motion_ne_back {text : List Char} {tokens : List Token} (lexes : Lexes text tokens)
    {sequence : List Char} (member : .control sequence ∈ tokens)
    (notLeft : isCursorLeft sequence = false) (count : Nat) : motion sequence ≠ .back count := by
  induction lexes with
  | nil => exact absurd member List.not_mem_nil
  | @csi params tail tokens cut later inductionHypothesis =>
      rcases List.mem_cons.mp member with same | member
      · cases same
        intro back
        rw [cut.isCursorLeft back] at notLeft
        cases notLeft
      · exact inductionHypothesis member
  | osc cut later inductionHypothesis =>
      rcases List.mem_cons.mp member with same | member
      · cases same
        exact motion_of_not_csi (by simp [isCsi_esc]) count
      · exact inductionHypothesis member
  | pair isAscii notCsi notOsc later inductionHypothesis =>
      rcases List.mem_cons.mp member with same | member
      · cases same
        exact motion_of_not_csi (by simp [isCsi_esc, notCsi]) count
      · exact inductionHypothesis member
  | last =>
      cases List.mem_singleton.mp member
      exact motion_of_not_csi (by decide) count
  | line isLine later inductionHypothesis =>
      rcases List.mem_cons.mp member with same | member
      · cases same
        refine motion_of_not_csi ?_ count
        rcases isLine with rfl | rfl <;> decide
      · exact inductionHypothesis member
  | char notEsc notLine later inductionHypothesis =>
      rcases List.mem_cons.mp member with impossible | member
      · cases impossible
      · exact inductionHypothesis member

/-- Below the greatest widths the clipping writes what fits. -/
theorem flatMap_clipped {cols : Nat} (small : cols + 2 < 2 ^ 16) (steps : List Step) :
    steps.flatMap (Step.clipped cols) = (steps.filter (Step.fits cols)).flatMap Step.text := by
  induction steps with
  | nil => rfl
  | cons step rest inductionHypothesis =>
      cases step with
      | control text =>
          rw [List.flatMap_cons, inductionHypothesis, filter_control]
          rfl
      | print char col width =>
          have same : (saturatingAdd col width - 1 ≤ cols) ↔ col + width ≤ cols + 1 := by
            unfold saturatingAdd
            omega
          by_cases inside : col + width ≤ cols + 1
          · rw [List.flatMap_cons, inductionHypothesis, filter_print_of_fits inside, Step.clipped,
              if_pos (same.mpr inside)]
            rfl
          · rw [List.flatMap_cons, inductionHypothesis, filter_print_of_not_fits inside,
              Step.clipped, if_neg (mt same.mp inside)]
            rfl

/-- On a screen of the greatest widths the clipping leaves out nothing. -/
theorem flatMap_clipped_of_large {cols : Nat} (large : 2 ^ 16 - 2 ≤ cols) (steps : List Step) :
    steps.flatMap (Step.clipped cols) = steps.flatMap Step.text := by
  refine List.flatMap_congr fun step _ => ?_
  cases step with
  | control text => rfl
  | print char col width =>
      refine if_pos ?_
      unfold saturatingAdd
      omega

theorem flatMap_text_token (steps : List Step) :
    (steps.map Step.token).flatMap Token.text = steps.flatMap Step.text := by
  rw [List.flatMap_map]
  refine List.flatMap_congr fun step _ => ?_
  cases step <;> rfl

theorem control_mem_place {text : List Char} {gridCols col : Nat} {tokens : List Token}
    (member : .control text ∈ tokens) : .control text ∈ place gridCols col tokens := by
  induction tokens generalizing col with
  | nil => exact absurd member List.not_mem_nil
  | cons token rest inductionHypothesis =>
      rcases List.mem_cons.mp member with rfl | later
      · exact List.mem_cons_self
      · cases token with
        | control other => exact List.mem_cons_of_mem _ (inductionHypothesis later)
        | print char => exact List.mem_cons_of_mem _ (inductionHypothesis later)

theorem slides_of_fits {cols : Nat} {steps : List Step}
    (all : ∀ step ∈ steps, step.fits cols = true) : slides cols false steps = false := by
  induction steps with
  | nil => rfl
  | cons step rest inductionHypothesis =>
      obtain ⟨inside, later⟩ := List.forall_mem_cons.mp all
      cases step with
      | control text => exact inductionHypothesis later
      | print char col width =>
          rw [slides, if_pos (of_decide_eq_true inside), Bool.false_and, Bool.false_or]
          exact inductionHypothesis later

/-- A text is clipped in place exactly when the walk gets through it, nothing slides into a cell
that a wide character leaves, and on the greatest widths nothing reaches past the edge. -/
theorem clipsInPlace_iff (screenText : List Char) (gridCols cols : Nat) (two : 2 ≤ cols)
    (narrower : cols ≤ gridCols) (isWord : gridCols < 2 ^ 16)
    (noLeft : ∀ steps, walkFormattedScreen screenText gridCols = some steps →
      ∀ step ∈ steps, step.goesLeft = false) :
    ClipsInPlace screenText gridCols cols ↔
      ∃ steps, walkFormattedScreen screenText gridCols = some steps ∧
        slides cols false steps = false ∧
        (cols < 2 ^ 16 - 2 ∨ ∀ step ∈ steps, step.fits cols = true) := by
  by_cases torn : Torn screenText
  · have panics : walkFormattedScreen screenText gridCols = none :=
      walkFrom_of_torn torn gridCols 1
    simp [ClipsInPlace, panics]
  obtain ⟨tokens, lexes⟩ := exists_lexes torn
  have walked : walkFormattedScreen screenText gridCols = some (place gridCols 1 tokens) :=
    lexes.walkFrom_eq gridCols 1
  have clips : clipFormattedScreenToWidth screenText gridCols cols =
      some ((place gridCols 1 tokens).flatMap (Step.clipped cols)) := by
    rw [clipFormattedScreenToWidth, if_neg (by omega), walked]
    rfl
  have notBack : ∀ text, .control text ∈ tokens → ∀ count, motion text ≠ .back count :=
    fun text member => lexes.motion_ne_back member (noLeft _ walked _ (control_mem_place member))
  simp only [ClipsInPlace, walked, clips, Option.some.injEq, exists_and_left, exists_eq_left']
  by_cases small : cols + 2 < 2 ^ 16
  · have keptLexes := lexes.thin (thins_place gridCols cols 1 tokens)
    rw [flatMap_text_token] at keptLexes
    have rewalked : walkFormattedScreen
        (((place gridCols 1 tokens).filter (Step.fits cols)).flatMap Step.text) cols = _ :=
      keptLexes.walkFrom_eq cols 1
    rw [flatMap_clipped small, rewalked, Option.some.injEq,
      place_filter_iff two narrower small notBack (.same 1)]
    simp only [true_and]
    exact ⟨fun still => ⟨still, .inl (by omega)⟩, And.left⟩
  · have sameText : (place gridCols 1 tokens).flatMap Step.text = screenText := by
      rw [flatMap_text_place, lexes.flatMap_text]
    have samePlaces : place cols 1 tokens = place gridCols 1 tokens :=
      place_eq_of_large (by omega) (by omega) 1 tokens
    have rewalked : walkFormattedScreen screenText cols = some (place gridCols 1 tokens) :=
      samePlaces ▸ lexes.walkFrom_eq cols 1
    rw [flatMap_clipped_of_large (by omega), sameText, rewalked, Option.some.injEq,
      eq_comm (b := List.filter _ _), List.filter_eq_self]
    constructor
    · rintro ⟨_, all⟩
      exact ⟨slides_of_fits all, .inr all⟩
    · rintro ⟨_, tooSmall | all⟩
      · omega
      · rw [List.filter_eq_self.mpr all, sameText]
        exact ⟨rfl, all⟩

/-- Ten cells with a wide character across the fifth, and one more in the next row. -/
def crossing : List Char := "abcd界efghk".toList

theorem crossing_clips_at_six : ClipsInPlace crossing 10 6 :=
  (clipsInPlace_iff crossing 10 6 (by decide) (by decide) (by decide) (by
    intro steps walked
    have none : (walkFormattedScreen crossing 10).all (·.all fun step =>
        !step.goesLeft) = true := by
      decide +kernel
    simpa [walked] using none)).mpr
    ⟨((walkFormattedScreen crossing 10).getD []), by decide +kernel, by decide +kernel,
      .inl (by decide)⟩

/-- At five columns the `k` of the second row slides into the fifth cell. -/
theorem crossing_slides : ¬ ∀ (screenText : List Char) (gridCols cols : Nat), 2 ≤ cols →
    cols ≤ gridCols → gridCols < 2 ^ 16 →
      (∀ steps, walkFormattedScreen screenText gridCols = some steps →
        ∀ step ∈ steps, step.goesLeft = false) →
      ClipsInPlace screenText gridCols cols := by
  intro claimed
  have noLeft : ∀ steps, walkFormattedScreen crossing 10 = some steps →
      ∀ step ∈ steps, step.goesLeft = false := by
    intro steps walked
    have none : (walkFormattedScreen crossing 10).all (·.all fun step =>
        !step.goesLeft) = true := by
      decide +kernel
    simpa [walked] using none
  obtain ⟨steps, clipped, walked, clips, _, rewalked⟩ :=
    claimed crossing 10 5 (by decide) (by decide) (by decide) noLeft
  have differ : (clipFormattedScreenToWidth crossing 10 5).bind (walkFormattedScreen · 5) ≠
      (walkFormattedScreen crossing 10).map (List.filter (Step.fits 5)) := by
    decide +kernel
  rw [clips, walked, Option.bind_some, rewalked] at differ
  exact differ rfl

end Yggterm.ScreenWalk
