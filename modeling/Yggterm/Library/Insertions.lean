import Mathlib.Data.List.Basic

/-!
# Lists that grow

A list grows when new elements are put between the old ones.  What is new meets a condition, and
what was there stays in its order.
-/

namespace Insertions

universe u

variable {Row : Type u} {new wider : Row → Prop}

inductive Grows (new : Row → Prop) : List Row → List Row → Prop where
  | nil : Grows new [] []
  | keep (row : Row) {old grown : List Row} (rest : Grows new old grown) :
      Grows new (row :: old) (row :: grown)
  | add {row : Row} {old grown : List Row} (isNew : new row) (rest : Grows new old grown) :
      Grows new old (row :: grown)

theorem Grows.refl (rows : List Row) : Grows new rows rows := by
  induction rows with
  | nil => exact .nil
  | cons row rest inductionHypothesis => exact .keep row inductionHypothesis

theorem Grows.append {old grown : List Row} (grows : Grows new old grown) (rest : List Row) :
    Grows new (old ++ rest) (grown ++ rest) := by
  induction grows with
  | nil => exact .refl rest
  | keep row _ inductionHypothesis => exact .keep row inductionHypothesis
  | add isNew _ inductionHypothesis => exact .add isNew inductionHypothesis

/-- New elements in one place. -/
theorem Grows.insert (front : List Row) {added : List Row} (areNew : ∀ row ∈ added, new row)
    (rest : List Row) : Grows new (front ++ rest) (front ++ (added ++ rest)) := by
  induction front with
  | nil =>
      induction added with
      | nil => exact .refl rest
      | cons row added inductionHypothesis =>
          obtain ⟨isNew, others⟩ := List.forall_mem_cons.mp areNew
          exact .add isNew (inductionHypothesis others)
  | cons row front inductionHypothesis => exact .keep row inductionHypothesis

theorem Grows.trans {first second third : List Row} (grows : Grows new first second)
    (further : Grows new second third) : Grows new first third := by
  induction further generalizing first with
  | nil => exact grows
  | keep row rest inductionHypothesis =>
      cases grows with
      | keep _ before => exact .keep row (inductionHypothesis before)
      | add isNew before => exact .add isNew (inductionHypothesis before)
  | add isNew rest inductionHypothesis => exact .add isNew (inductionHypothesis grows)

theorem Grows.mono {old grown : List Row} (grows : Grows new old grown)
    (wide : ∀ row, new row → wider row) : Grows wider old grown := by
  induction grows with
  | nil => exact .nil
  | keep row _ inductionHypothesis => exact .keep row inductionHypothesis
  | add isNew _ inductionHypothesis => exact .add (wide _ isNew) inductionHypothesis

theorem Grows.sublist {old grown : List Row} (grows : Grows new old grown) : old.Sublist grown := by
  induction grows with
  | nil => exact .slnil
  | keep row _ inductionHypothesis => exact inductionHypothesis.cons_cons row
  | add _ _ inductionHypothesis => exact inductionHypothesis.cons _

theorem Grows.mem {old grown : List Row} (grows : Grows new old grown) {row : Row}
    (member : row ∈ grown) : row ∈ old ∨ new row := by
  induction grows with
  | nil => cases member
  | keep first _ inductionHypothesis =>
      rcases List.mem_cons.mp member with rfl | later
      · exact .inl List.mem_cons_self
      · exact (inductionHypothesis later).imp (List.mem_cons_of_mem first) id
  | add isNew _ inductionHypothesis =>
      rcases List.mem_cons.mp member with rfl | later
      · exact .inr isNew
      · exact inductionHypothesis later

theorem Grows.head {old grown : List Row} (grows : Grows new old grown) {row : Row}
    (isFirst : grown.head? = some row) : old.head? = some row ∨ new row := by
  cases grows with
  | nil => cases isFirst
  | keep first _ => exact .inl isFirst
  | add isNew _ =>
      cases isFirst
      exact .inr isNew

end Insertions
