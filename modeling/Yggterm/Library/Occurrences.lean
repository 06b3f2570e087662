import Mathlib.Data.List.Forall2
import Yggterm.Library.Patterns
import Yggterm.Library.Search

/-!
# What a replacement does to each occurrence

A text that does not overlap itself is replaced wherever it stands, and nothing else changes.
-/

namespace Patterns

open Search

variable {Symbol : Type}

/-- A text and what becomes of it: symbols are kept where no occurrence begins. -/
inductive Rewrites (old new : List Symbol) : List Symbol → List Symbol → Prop where
  | nil : Rewrites old new [] []
  | keep {symbol : Symbol} {text result : List Symbol} (notHere : ¬ old <+: symbol :: text)
      (rest : Rewrites old new text result) : Rewrites old new (symbol :: text) (symbol :: result)
  | swap {text result : List Symbol} (rest : Rewrites old new text result) :
      Rewrites old new (old ++ text) (new ++ result)

theorem Rewrites.forall₂ {old new : List Symbol} {Related : Symbol → Symbol → Prop}
    (reflexive : ∀ symbol, Related symbol symbol) (related : List.Forall₂ Related old new)
    {text result : List Symbol} (rewrites : Rewrites old new text result) :
    List.Forall₂ Related text result := by
  induction rewrites with
  | nil => exact .nil
  | keep _ _ inductionHypothesis => exact .cons (reflexive _) inductionHypothesis
  | swap _ inductionHypothesis => exact List.rel_append related inductionHypothesis

variable [DecidableEq Symbol]

/-- The occurrences behind those symbols that the last one has used up. -/
def countFrom (old : List Symbol) : Nat → List Symbol → Nat
  | _, [] => 0
  | skip + 1, _ :: rest => countFrom old skip rest
  | 0, symbol :: rest =>
      if old <+: symbol :: rest then countFrom old (old.length - 1) rest + 1
      else countFrom old 0 rest

/-- How many occurrences are replaced. -/
def countMatches (old text : List Symbol) : Nat := countFrom old 0 text

theorem countMatches_pos {old text : List Symbol} (nonempty : old ≠ []) (inside : old <:+: text) :
    0 < countMatches old text := by
  induction text with
  | nil => exact absurd (List.infix_nil.mp inside) nonempty
  | cons symbol rest inductionHypothesis =>
      rw [countMatches, countFrom]
      split
      · exact Nat.succ_pos _
      · next notHere =>
          exact inductionHypothesis ((List.infix_cons_iff.mp inside).resolve_left notHere)

variable {old new : List Symbol}

theorem rewrites_replaceAll (nonempty : old ≠ []) (text : List Symbol) :
    Rewrites old new text (replaceAll old new text) := by
  induction size : text.length using Nat.strong_induction_on generalizing text with
  | _ bound inductionHypothesis =>
      by_cases here : old <+: text
      · obtain ⟨rest, rfl⟩ := here
        have positive := List.length_pos_iff.mpr nonempty
        rw [replaceAll_append nonempty]
        rw [List.length_append] at size
        exact .swap (inductionHypothesis rest.length (by omega) rest rfl)
      · cases text with
        | nil =>
            rw [ replaceAll_of_not_infix fun inside => nonempty (List.infix_nil.mp inside)]
            exact .nil
        | cons symbol rest =>
            have later := inductionHypothesis rest.length (by simp [← size]) rest rfl
            rw [replaceAll, if_neg nonempty] at later ⊢
            rw [replaceFrom_zero, if_neg here]
            exact .keep here later

/-- Every occurrence is swapped, and the texts before and behind it are rewritten. -/
theorem Rewrites.of_occurrence {text result before after : List Symbol}
    (rewrites : Rewrites old new text result) (nonempty : old ≠ []) (borderless : Borderless old)
    (isText : text = before ++ (old ++ after)) :
    ∃ front back, result = front ++ (new ++ back) ∧ Rewrites old new before front ∧
      Rewrites old new after back := by
  induction rewrites generalizing before with
  | nil =>
      obtain ⟨_, isNil⟩ := List.append_eq_nil_iff.mp isText.symm
      exact absurd (List.append_eq_nil_iff.mp isNil).1 nonempty
  | keep notHere rest inductionHypothesis =>
      cases before with
      | nil => exact absurd ⟨after, isText.symm⟩ notHere
      | cons first before =>
          obtain ⟨rfl, isRest⟩ := List.cons_eq_cons.mp isText
          obtain ⟨front, back, rfl, isFront, isBack⟩ := inductionHypothesis isRest
          refine ⟨_ :: front, back, rfl, .keep (fun here => notHere ?_) isFront, isBack⟩
          rw [isText]
          exact here.trans (List.prefix_append _ _)
  | @swap text result rest inductionHypothesis =>
      have atFront := findText_append_self nonempty text
      rcases occurrence_of_findText borderless atFront isText with rfl | ⟨between, rfl⟩
      · have isEmpty : before = [] := by
          have lengths := congrArg List.length isText
          simp only [List.length_append] at lengths
          exact List.length_eq_zero_iff.mp (by omega)
        rw [isEmpty]
        exact ⟨[], result, rfl, .nil, rest⟩
      · have isBefore : before = old ++ between := by
          rw [← List.append_assoc] at isText
          exact (List.append_cancel_right isText).symm
        obtain ⟨front, back, rfl, isFront, isBack⟩ := inductionHypothesis rfl
        rw [isBefore]
        exact ⟨new ++ front, back, (List.append_assoc _ _ _).symm, .swap isFront, isBack⟩

end Patterns
