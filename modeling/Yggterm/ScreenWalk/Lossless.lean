import Yggterm.Library.Ascii
import Yggterm.ScreenWalk.Tokens

/-!
# What the walk gets through

An escape of two bytes is cut behind its second byte, whatever stands there.  Where a longer
character follows the escape, the slice panics; every other text is walked without loss.
-/

namespace Yggterm.ScreenWalk

open Reader (esc bel)
open Utf8

/-- Texts of finished control sequences and single characters. -/
inductive Closed : List Char → Prop
  | nil : Closed []
  | csi {params rest : List Char} {final : Char} (clean : ∀ char ∈ params, char.isAlpha = false)
      (ends : final.isAlpha = true) (later : Closed rest) :
      Closed (esc :: '[' :: (params ++ final :: rest))
  | osc {content rest : List Char} (clean : bel ∉ content) (later : Closed rest) :
      Closed (esc :: ']' :: (content ++ bel :: rest))
  | pair {next : Char} {rest : List Char} (notCsi : next ≠ '[') (notOsc : next ≠ ']')
      (later : Closed rest) : Closed (esc :: next :: rest)
  | char {char : Char} {rest : List Char} (notEsc : char ≠ esc) (later : Closed rest) :
      Closed (char :: rest)

/-- Somewhere an escape that starts a sequence stands before a character beyond ASCII. -/
def Torn (text : List Char) : Prop :=
  ∃ before next rest, Closed before ∧ text = before ++ esc :: next :: rest ∧ ¬ next.toNat < 0x80

theorem stopsAt_isAsciiAlphabetic (char : Char) :
    stopsAt isAsciiAlphabetic char = char.isAlpha := by
  by_cases isAscii : char.toNat < 0x80
  · exact Ascii.of_forall_ofNat (fun char => stopsAt isAsciiAlphabetic char = char.isAlpha)
      (by decide) isAscii
  · have notAlpha : char.isAlpha = false := by
      cases alpha : char.isAlpha with
      | false => rfl
      | true =>
          have alphanum : char.isAlphanum = true := by simp [Char.isAlphanum, alpha]
          exact absurd (Ascii.toNat_lt_of_isAlphanum alphanum) isAscii
    rw [notAlpha, stopsAt, decide_eq_false isAscii, Bool.false_and]

theorem stopsAt_isBel (char : Char) : stopsAt isBel char = decide (char = bel) := by
  by_cases isAscii : char.toNat < 0x80
  · exact Ascii.of_forall_ofNat (fun char => stopsAt isBel char = decide (char = bel))
      (by decide) isAscii
  · have notBel : char ≠ bel := by
      rintro rfl
      exact isAscii (by decide)
    rw [stopsAt, decide_eq_false isAscii, Bool.false_and, decide_eq_false notBel]

theorem cut_csi {params rest : List Char} {final : Char}
    (clean : ∀ char ∈ params, char.isAlpha = false) (ends : final.isAlpha = true) :
    Cut isAsciiAlphabetic params (final :: rest) where
  clean := fun char member => (stopsAt_isAsciiAlphabetic char).trans (clean char member)
  ends := by
    rintro char ⟨⟩
    exact (stopsAt_isAsciiAlphabetic final).trans ends

theorem cut_osc {content : List Char} (clean : bel ∉ content) (rest : List Char) :
    Cut isBel content (bel :: rest) where
  clean := fun char member => by
    rw [stopsAt_isBel, decide_eq_false (ne_of_mem_of_not_mem member clean)]
  ends := by
    rintro char ⟨⟩
    decide

/-- Each text is divided where a loop ends. -/
theorem cut_takeWhile (stops : UInt8 → Bool) (text : List Char) :
    Cut stops (text.takeWhile fun char => !stopsAt stops char)
      (text.dropWhile fun char => !stopsAt stops char) where
  clean := fun char member => by
    simpa using List.mem_takeWhile_imp member
  ends := fun char isHead => by
    have stopped := List.head?_dropWhile_not (fun char => !stopsAt stops char) text
    rw [isHead] at stopped
    simpa using stopped

/-- The walk panics where a text is torn. -/
theorem walkFrom_of_torn {text : List Char} (torn : Torn text) (gridCols col : Nat) :
    walkFrom gridCols text col = none := by
  obtain ⟨before, next, rest, closed, rfl, notAscii⟩ := torn
  induction closed generalizing col with
  | nil => exact walkFrom_pair_eq_none notAscii rest gridCols col
  | csi clean ends _ inductionHypothesis =>
      simp only [List.cons_append, List.append_assoc]
      rw [walkFrom_csi (cut_csi clean ends), List.drop_one, List.tail_cons, inductionHypothesis]
      rfl
  | osc clean _ inductionHypothesis =>
      simp only [List.cons_append, List.append_assoc]
      rw [walkFrom_osc (cut_osc clean _), List.drop_one, List.tail_cons, inductionHypothesis]
      rfl
  | @pair second _ notCsi notOsc _ inductionHypothesis =>
      by_cases isAscii : second.toNat < 0x80
      · simp only [List.cons_append]
        rw [walkFrom_pair isAscii notCsi notOsc, inductionHypothesis]
        rfl
      · exact walkFrom_pair_eq_none isAscii _ gridCols col
  | @char char _ notEsc _ inductionHypothesis =>
      rw [List.cons_append]
      by_cases isLine : char = '\n' ∨ char = '\r'
      · rw [walkFrom_line isLine, inductionHypothesis]
        rfl
      · rw [walkFrom, if_neg notEsc, if_neg isLine]
        dsimp only
        rw [inductionHypothesis]
        rfl

theorem Torn.after {text : List Char} (torn : Torn text) (front : List Char)
    (closes : ∀ rest, Closed rest → Closed (front ++ rest)) : Torn (front ++ text) := by
  obtain ⟨before, next, rest, closed, rfl, notAscii⟩ := torn
  exact ⟨front ++ before, next, rest, closes before closed, (List.append_assoc ..).symm, notAscii⟩

theorem not_torn_nil : ¬ Torn [] := by
  rintro ⟨before, next, rest, _, impossible, _⟩
  exact absurd impossible (by simp)

/-- A text that is torn behind a cut is torn. -/
theorem Torn.after_cut {front tail : List Char} (torn : Torn (tail.drop 1))
    (introducer : List Char) (closes : ∀ last, tail.head? = some last → ∀ rest, Closed rest →
      Closed (introducer ++ (front ++ last :: rest))) : Torn (introducer ++ (front ++ tail)) := by
  cases tail with
  | nil => exact absurd torn not_torn_nil
  | cons last after =>
      have whole : introducer ++ (front ++ last :: after) =
          (introducer ++ (front ++ [last])) ++ after := by simp
      rw [whole]
      refine torn.after _ fun rest closed => ?_
      simpa using closes last rfl rest closed

theorem Cut.closed_csi {params tail : List Char} (cut : Cut isAsciiAlphabetic params tail) :
    ∀ last, tail.head? = some last → ∀ rest, Closed rest →
      Closed ([esc, '['] ++ (params ++ last :: rest)) := fun last isHead _ closed =>
  .csi (fun char member => (stopsAt_isAsciiAlphabetic char).symm.trans (cut.clean char member))
    ((stopsAt_isAsciiAlphabetic last).symm.trans (cut.ends last isHead)) closed

theorem Cut.closed_osc {content tail : List Char} (cut : Cut isBel content tail) :
    ∀ last, tail.head? = some last → ∀ rest, Closed rest →
      Closed ([esc, ']'] ++ (content ++ last :: rest)) := by
  intro last isHead _ closed
  have isBell : last = bel := by simpa [stopsAt_isBel] using cut.ends last isHead
  subst isBell
  refine .osc (fun member => ?_) closed
  simpa [stopsAt_isBel] using cut.clean bel member

/-- Every other text has its tokens. -/
theorem exists_lexes {text : List Char} (whole : ¬ Torn text) : ∃ tokens, Lexes text tokens := by
  induction length : text.length using Nat.strong_induction_on generalizing text with
  | _ count inductionHypothesis =>
      subst length
      have behind : ∀ (stops : UInt8 → Bool) (body : List Char), body.length + 2 ≤ text.length →
          ¬ Torn ((body.dropWhile fun char => !stopsAt stops char).drop 1) →
          ∃ tokens, Lexes ((body.dropWhile fun char => !stopsAt stops char).drop 1) tokens := by
        intro stops body shorter rest
        have fewer := (List.dropWhile_sublist (fun char => !stopsAt stops char)
          (l := body)).length_le
        refine inductionHypothesis _ ?_ rest rfl
        rw [List.length_drop]
        omega
      cases text with
      | nil => exact ⟨[], .nil⟩
      | cons char rest =>
          have single : char ≠ esc → ∃ tokens, Lexes rest tokens := fun notEsc =>
            inductionHypothesis _ (Nat.lt_succ_self _)
              (fun torn => whole (torn.after [char] fun _ => .char notEsc)) rfl
          by_cases isEsc : char = esc
          · subst isEsc
            cases rest with
            | nil => exact ⟨_, .last⟩
            | cons next body =>
                by_cases csi : next = '['
                · subst csi
                  have cut := cut_takeWhile isAsciiAlphabetic body
                  have divided : body.takeWhile _ ++ _ = body := List.takeWhile_append_dropWhile
                    (p := fun char => !stopsAt isAsciiAlphabetic char)
                  obtain ⟨tokens, lexes⟩ :=
                      behind isAsciiAlphabetic body (Nat.le_refl _) fun torn => by
                    have := torn.after_cut [esc, '['] cut.closed_csi
                    rw [divided] at this
                    exact whole this
                  rw [← divided]
                  exact ⟨_, .csi cut lexes⟩
                by_cases osc : next = ']'
                · subst osc
                  have cut := cut_takeWhile isBel body
                  have divided : body.takeWhile _ ++ _ = body := List.takeWhile_append_dropWhile
                    (p := fun char => !stopsAt isBel char)
                  obtain ⟨tokens, lexes⟩ := behind isBel body (Nat.le_refl _) fun torn => by
                    have := torn.after_cut [esc, ']'] cut.closed_osc
                    rw [divided] at this
                    exact whole this
                  rw [← divided]
                  exact ⟨_, .osc cut lexes⟩
                have isAscii : next.toNat < 0x80 := by
                  by_contra notAscii
                  exact whole ⟨[], next, body, .nil, rfl, notAscii⟩
                obtain ⟨tokens, lexes⟩ := inductionHypothesis body.length (by grind)
                  (fun torn => whole (torn.after [esc, next] fun _ => .pair csi osc)) rfl
                exact ⟨_, .pair isAscii csi osc lexes⟩
          · obtain ⟨tokens, lexes⟩ := single isEsc
            by_cases isLine : char = '\n' ∨ char = '\r'
            · exact ⟨_, .line isLine lexes⟩
            · exact ⟨_, .char isEsc isLine lexes⟩

/-- The walk is total and lossless on every text that is not torn, and panics on the others. -/
theorem walkFormattedScreen_lossless_iff (screenText : List Char) (gridCols : Nat) :
    (∃ steps, walkFormattedScreen screenText gridCols = some steps ∧
      steps.flatMap Step.text = screenText) ↔ ¬ Torn screenText := by
  constructor
  · rintro ⟨steps, walked, _⟩ torn
    rw [walkFormattedScreen, walkFrom_of_torn torn] at walked
    cases walked
  · intro whole
    obtain ⟨tokens, lexes⟩ := exists_lexes whole
    refine ⟨place gridCols 1 tokens, lexes.walkFrom_eq gridCols 1, ?_⟩
    rw [flatMap_text_place, lexes.flatMap_text]

/-- An escape before `é`. -/
theorem walk_panics_behind_escape : ¬ ∀ (screenText : List Char) (gridCols : Nat),
    ∃ steps, walkFormattedScreen screenText gridCols = some steps ∧
      steps.flatMap Step.text = screenText := by
  intro claimed
  obtain ⟨steps, walked, _⟩ := claimed [esc, 'é'] 80
  have panics : walkFormattedScreen [esc, 'é'] 80 = none := by decide +kernel
  rw [panics] at walked
  cases walked

end Yggterm.ScreenWalk
