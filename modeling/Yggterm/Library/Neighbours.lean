import Mathlib.Data.Set.Card
import Mathlib.Order.Bounds.Basic

/-!
# Neighbours of an instant

The events before and behind an instant, and the search for the next event that is kept: it goes
from one event to the next and gives up after a number of them.
-/

namespace Neighbours

universe u

variable {Time : Type u} [LinearOrder Time] {occurs keeps : Time → Prop} {instant : Time}

/-- The last event up to an instant, or none where there is none. -/
def IsPrevious (occurs : Time → Prop) (instant : Time) : Option Time → Prop
  | some previous => IsGreatest {event | occurs event ∧ event ≤ instant} previous
  | none => ∀ event, occurs event → instant < event

/-- The first event behind an instant, or none where there is none. -/
def IsNext (occurs : Time → Prop) (instant : Time) : Option Time → Prop
  | some next => IsLeast {event | occurs event ∧ instant < event} next
  | none => ∀ event, occurs event → event ≤ instant

theorem IsPrevious.eq_of_occurs {previous : Option Time}
    (isPrevious : IsPrevious occurs instant previous) (here : occurs instant) :
    previous = some instant := by
  cases previous with
  | none => exact absurd (isPrevious instant here) (lt_irrefl instant)
  | some previous =>
      have atMost := isPrevious.1.2
      have atLeast := isPrevious.2 ⟨here, le_rfl⟩
      rw [le_antisymm atMost atLeast]

theorem IsPrevious.occurs_of_mem {previous : Time}
    (isPrevious : IsPrevious occurs instant (some previous)) :
    occurs previous ∧ previous ≤ instant :=
  isPrevious.1

/-- No event stands between the previous one and the instant. -/
theorem IsPrevious.lt_next {previous next : Time}
    (isPrevious : IsPrevious occurs instant (some previous))
    (isNext : IsNext occurs previous (some next)) : instant < next := by
  by_contra notBehind
  have atMost := isPrevious.2 ⟨isNext.1.1, not_lt.mp notBehind⟩
  exact absurd isNext.1.2 (not_lt.mpr atMost)

theorem IsNext.unique {first second : Option Time} (isFirst : IsNext occurs instant first)
    (isSecond : IsNext occurs instant second) : first = second := by
  cases first with
  | none =>
      cases second with
      | none => rfl
      | some next => exact absurd isSecond.1.2 (not_lt.mpr (isFirst next isSecond.1.1))
  | some next =>
      cases second with
      | none => exact absurd isFirst.1.2 (not_lt.mpr (isSecond next isFirst.1.1))
      | some other => rw [IsLeast.unique isFirst isSecond]

/-- Behind an event that is not kept the next kept one is the same. -/
theorem IsNext.kept_iff {next : Time} (isNext : IsNext occurs instant (some next))
    (dropped : ¬keeps next) (kept : Option Time) :
    IsNext (fun event => occurs event ∧ keeps event) instant kept ↔
      IsNext (fun event => occurs event ∧ keeps event) next kept := by
  have behind : ∀ event, occurs event → keeps event → (instant < event ↔ next < event) := by
    intro event isEvent isKept
    constructor
    · intro later
      apply lt_of_le_of_ne (isNext.2 ⟨isEvent, later⟩)
      rintro rfl
      exact dropped isKept
    · exact isNext.1.2.trans
  cases kept with
  | none =>
      simp only [IsNext, ← not_lt]
      constructor
      · intro noneLater event isEvent later
        exact noneLater event isEvent ((behind event isEvent.1 isEvent.2).mpr later)
      · intro noneLater event isEvent later
        exact noneLater event isEvent ((behind event isEvent.1 isEvent.2).mp later)
  | some event =>
      have same : {event | (occurs event ∧ keeps event) ∧ instant < event} =
          {event | (occurs event ∧ keeps event) ∧ next < event} := by
        ext event
        constructor
        · rintro ⟨isEvent, later⟩
          exact ⟨isEvent, (behind event isEvent.1 isEvent.2).mp later⟩
        · rintro ⟨isEvent, later⟩
          exact ⟨isEvent, (behind event isEvent.1 isEvent.2).mpr later⟩
      rw [IsNext, IsNext, same]

/-- The events behind an instant up to a last one. -/
def between (occurs : Time → Prop) (instant last : Time) : Set Time :=
  {event | occurs event ∧ instant < event ∧ event ≤ last}

theorem IsNext.between_eq {next last : Time} (isNext : IsNext occurs instant (some next))
    (reaches : next ≤ last) :
    between occurs instant last = insert next (between occurs next last) := by
  ext event
  constructor
  · rintro ⟨isEvent, later, upTo⟩
    rcases eq_or_lt_of_le (isNext.2 ⟨isEvent, later⟩) with rfl | behind
    · exact .inl rfl
    · exact .inr ⟨isEvent, behind, upTo⟩
  · rintro (rfl | ⟨isEvent, later, upTo⟩)
    · exact ⟨isNext.1.1, isNext.1.2, reaches⟩
    · exact ⟨isEvent, isNext.1.2.trans later, upTo⟩

theorem IsNext.encard_between {next last : Time} (isNext : IsNext occurs instant (some next))
    (reaches : next ≤ last) :
    (between occurs instant last).encard = (between occurs next last).encard + 1 := by
  rw [isNext.between_eq reaches]
  exact Set.encard_insert_of_notMem fun member => lt_irrefl next member.2.1

theorem between_self (occurs : Time → Prop) (instant : Time) :
    between occurs instant instant = ∅ := by
  apply Set.eq_empty_of_forall_notMem
  rintro event ⟨_, later, upTo⟩
  exact absurd later (not_lt.mpr upTo)

/-- Go from event to event, at most `fuel` times, until one is kept. -/
def firstKept (next : Time → Option Time) (keep : Time → Bool) : Nat → Time → Option Time
  | 0, _ => none
  | fuel + 1, cursor =>
      match next cursor with
      | none => none
      | some candidate =>
          if keep candidate then some candidate else firstKept next keep fuel candidate

/-- The search finds the next kept event just where it is within reach. -/
theorem firstKept_eq_iff {next : Time → Option Time} {keep : Time → Bool}
    {sound : Time → Prop} (isNext : ∀ cursor, sound cursor → IsNext occurs cursor (next cursor))
    (stays : ∀ cursor candidate, sound cursor → next cursor = some candidate →
      keep candidate = false → sound candidate) (fuel : Nat) {cursor : Time}
    (isSound : sound cursor) {kept : Option Time}
    (isKept : IsNext (fun event => occurs event ∧ keep event = true) cursor kept) :
    firstKept next keep fuel cursor = kept ↔
      ∀ event ∈ kept, (between occurs cursor event).encard ≤ fuel := by
  induction fuel generalizing cursor with
  | zero =>
      rw [firstKept]
      constructor
      · rintro rfl
        simp
      · intro near
        cases kept with
        | none => rfl
        | some event =>
            have empty := near event rfl
            rw [Nat.cast_zero, nonpos_iff_eq_zero, Set.encard_eq_zero] at empty
            have member : event ∈ between occurs cursor event :=
              ⟨isKept.1.1.1, isKept.1.2, le_rfl⟩
            rw [empty] at member
            cases member
  | succ fuel inductionHypothesis =>
      have hasNext := isNext cursor isSound
      rw [firstKept]
      cases found : next cursor with
      | none =>
          rw [found] at hasNext
          have noneKept : IsNext (fun event => occurs event ∧ keep event = true) cursor none :=
            fun event isEvent => hasNext event isEvent.1
          rw [isKept.unique noneKept]
          simp
      | some candidate =>
          rw [found] at hasNext
          cases isGood : keep candidate with
          | true =>
              have first : IsNext (fun event => occurs event ∧ keep event = true) cursor
                  (some candidate) :=
                ⟨⟨⟨hasNext.1.1, isGood⟩, hasNext.1.2⟩, fun event isEvent =>
                  hasNext.2 ⟨isEvent.1.1, isEvent.2⟩⟩
              rw [isKept.unique first]
              apply iff_of_true
              · simp [isGood]
              · rintro event ⟨⟩
                rw [hasNext.encard_between le_rfl, between_self, Set.encard_empty, zero_add]
                simp
          | false =>
              have laterKept := (hasNext.kept_iff (by simp [isGood]) kept).mp isKept
              have step := inductionHypothesis
                (stays cursor candidate isSound found isGood) laterKept
              dsimp only
              rw [isGood, if_neg (by simp), step]
              apply forall₂_congr
              rintro event rfl
              rw [hasNext.encard_between laterKept.1.2.le, Nat.cast_succ]
              exact (ENat.add_le_add_iff_right (by simp)).symm

theorem exists_isNext [WellFoundedLT Time] (occurs : Time → Prop) (instant : Time) :
    ∃ next, IsNext occurs instant next := by
  by_cases later : {event | occurs event ∧ instant < event}.Nonempty
  · refine ⟨some (wellFounded_lt.min _ later), WellFounded.min_mem _ _ later, ?_⟩
    intro event member
    exact WellFounded.min_le wellFounded_lt member
  · refine ⟨none, ?_⟩
    intro event isEvent
    by_contra behind
    exact later ⟨event, isEvent, not_le.mp behind⟩

end Neighbours
