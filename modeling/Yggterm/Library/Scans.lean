import Mathlib.Algebra.Ring.Periodic
import Mathlib.Tactic.Ring

/-!
# Scans over the integers

A scan looks at one place after another, in steps of one length, until a place answers, until
the next place does not exist, or until it has looked at a number of places.  Where the choice of
the places that may answer has a period, a scan over the first place and one period misses none.
-/

namespace Scans

universe u

variable {Answer : Type u}

section Scan

variable (inside : Int → Prop) [DecidablePred inside] (step : Int) (answer : Int → Option Answer)

def scan : Nat → Int → Option Answer
  | 0, _ => none
  | fuel + 1, place =>
      match answer place with
      | some found => some found
      | none => if inside (place + step) then scan fuel (place + step) else none

variable {inside step answer}

theorem scan_of_answer {place : Int} {found : Answer} (answers : answer place = some found)
    (fuel : Nat) : scan inside step answer (fuel + 1) place = some found := by
  rw [scan, answers]

theorem scan_of_silent {place : Int} (silent : answer place = none)
    (next : inside (place + step)) (fuel : Nat) :
    scan inside step answer (fuel + 1) place = scan inside step answer fuel (place + step) := by
  rw [scan, silent]
  exact if_pos next

/-- The answer is that of the first place that answers, and that place exists. -/
theorem exists_of_scan_eq_some {fuel : Nat} {place : Int} {found : Answer}
    (isFound : scan inside step answer fuel place = some found) :
    ∃ count : Nat, answer (place + step * count) = some found ∧
      (∀ earlier : Nat, earlier < count → answer (place + step * earlier) = none) ∧
      (0 < count → inside (place + step * count)) := by
  induction fuel generalizing place with
  | zero => cases isFound
  | succ fuel inductionHypothesis =>
      cases here : answer place with
      | some other =>
          rw [scan_of_answer here] at isFound
          exact ⟨0, by simp [here, Option.some.inj isFound], by simp, by simp⟩
      | none =>
          by_cases next : inside (place + step)
          · rw [scan_of_silent here next] at isFound
            obtain ⟨count, isAnswer, before, reached⟩ := inductionHypothesis isFound
            have shift : ∀ count : Nat,
                place + step * ((count + 1 : Nat) : Int) = place + step + step * count := by
              intro count
              rw [Nat.cast_succ]
              ring
            refine ⟨count + 1, by rw [shift, isAnswer], ?_, ?_⟩
            · intro earlier isEarlier
              cases earlier with
              | zero => simpa using here
              | succ earlier => rw [shift, before earlier (by omega)]
            · intro _
              rw [shift]
              rcases Nat.eq_zero_or_pos count with rfl | positive
              · simpa using next
              · exact reached positive
          · rw [scan, here] at isFound
            rw [if_neg next] at isFound
            cases isFound

/-- A scan that finds nothing has looked at every place within its reach. -/
theorem answer_eq_none_of_scan {fuel : Nat} {place : Int}
    (isNone : scan inside step answer fuel place = none) {count : Nat} (near : count < fuel)
    (reached : ∀ earlier : Nat, earlier < count → inside (place + step * (earlier + 1))) :
    answer (place + step * count) = none := by
  induction fuel generalizing place count with
  | zero => omega
  | succ fuel inductionHypothesis =>
      cases here : answer place with
      | some found =>
          rw [scan_of_answer here] at isNone
          cases isNone
      | none =>
          cases count with
          | zero => simpa using here
          | succ count =>
              have next : inside (place + step) := by simpa using reached 0 (by omega)
              rw [scan_of_silent here next] at isNone
              have later : answer (place + step + step * count) = none := by
                apply inductionHypothesis isNone (by omega)
                intro earlier isEarlier
                have there := reached (earlier + 1) (by omega)
                rwa [show place + step * (((earlier + 1 : Nat) : Int) + 1) =
                  place + step + step * (earlier + 1) by rw [Nat.cast_succ]; ring] at there
              rwa [show place + step * ((count + 1 : Nat) : Int) = place + step + step * count by
                rw [Nat.cast_succ]; ring]

/-- Within a period there is a chosen place no later than any chosen one. -/
theorem exists_within_period (chosen : Nat → Prop) {period : Nat} (positive : 0 < period)
    (periodic : ∀ count, chosen (count + period) → chosen count) {count : Nat}
    (later : 0 < count) (isChosen : chosen count) :
    ∃ near, 0 < near ∧ near ≤ period ∧ near ≤ count ∧ chosen near := by
  induction count using Nat.strong_induction_on with
  | _ count inductionHypothesis =>
      by_cases short : count ≤ period
      · exact ⟨count, later, short, le_rfl, isChosen⟩
      · have before : chosen (count - period) := by
          apply periodic
          rwa [Nat.sub_add_cancel (by omega)]
        obtain ⟨near, isLater, inPeriod, noLater, isNear⟩ :=
          inductionHypothesis (count - period) (by omega) (by omega) before
        exact ⟨near, isLater, inPeriod, by omega, isNear⟩

/-- Where only chosen places answer, and each of them behind the first does, a scan over the
first place and a period of the choice finds nothing only where there is nothing. -/
theorem silent_of_scan_eq_none {chosen : Int → Bool} {period : Nat} (positive : 0 < period)
    (periodic : Function.Periodic chosen (period : Int)) {place : Int}
    (answers : ∀ count : Nat, answer (place + step * count) ≠ none →
      chosen (place + step * count) = true)
    (later : ∀ count : Nat, 0 < count → inside (place + step * count) →
      chosen (place + step * count) = true → answer (place + step * count) ≠ none)
    (isNone : scan inside step answer (period + 1) place = none) {count : Nat}
    (reached : ∀ earlier : Nat, 0 < earlier → earlier ≤ count → inside (place + step * earlier)) :
    answer (place + step * count) = none := by
  by_contra isSome
  rcases Nat.eq_zero_or_pos count with rfl | positiveCount
  · exact isSome (answer_eq_none_of_scan isNone (by omega) (by intro earlier isEarlier; omega))
  · obtain ⟨near, isLater, inPeriod, noLater, isNear⟩ :=
      exists_within_period (fun count : Nat => chosen (place + step * count) = true)
        positive (by
          intro count isChosen
          have moved := (periodic.int_mul step) (place + step * count)
          rw [← moved]
          rwa [Nat.cast_add, Int.mul_add, ← Int.add_assoc] at isChosen) positiveCount
        (answers count isSome)
    apply later near isLater (reached near isLater noLater) isNear
    apply answer_eq_none_of_scan isNone (by omega)
    intro earlier isEarlier
    have there := reached (earlier + 1) (by omega) (by omega)
    rwa [Nat.cast_succ] at there

end Scan

end Scans
