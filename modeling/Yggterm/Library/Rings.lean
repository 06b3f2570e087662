import Mathlib.Data.List.Nodup
import Mathlib.Data.List.Rotate
import Mathlib.Data.Nat.ModEq

/-!
# Stepping around a ring of names

A walk goes around the stops of a list, and keeps the name of the stop that it is at.  The next
step starts at the first stop of that name.
-/

namespace Rings

universe u

variable {Name : Type u} [BEq Name] {names : List Name}

/-- The first stop with the name of a stop. -/
def found (names : List Name) (stop : Nat) : Nat :=
  ((names[stop]?).map fun name => names.idxOf name).getD 0

/-- The stops that so many steps come to. -/
def visits (names : List Name) : Nat → Nat → List Nat
  | 0, _ => []
  | count + 1, current =>
      (current + 1) % names.length ::
        visits names count (found names ((current + 1) % names.length))

variable [LawfulBEq Name]

theorem found_of_nodup (nodup : names.Nodup) {stop : Nat} (isStop : stop < names.length) :
    found names stop = stop := by
  rw [found, List.getElem?_eq_getElem isStop, Option.map_some, Option.getD_some,
    List.Nodup.idxOf_getElem nodup]

theorem found_le (names : List Name) (stop : Nat) : found names stop ≤ stop := by
  rw [found]
  cases isName : names[stop]? with
  | none => exact Nat.zero_le stop
  | some name =>
      obtain ⟨isStop, rfl⟩ := List.getElem?_eq_some_iff.mp isName
      rw [Option.map_some, Option.getD_some]
      by_contra later
      have notFound := List.not_of_lt_findIdx (Nat.lt_of_not_le later)
      rw [beq_self_eq_true] at notFound
      cases notFound

/-- A stop is not found where an earlier one has its name. -/
theorem found_lt {first second : Nat} (less : first < second) (isStop : second < names.length)
    (same : names[first]? = names[second]?) : found names second < second := by
  have sooner := found_le names first
  rw [found, same, List.getElem?_eq_getElem isStop, Option.map_some, Option.getD_some] at sooner
  rw [found, List.getElem?_eq_getElem isStop]
  exact sooner.trans_lt less

theorem visits_of_nodup (nodup : names.Nodup) (count current : Nat) (nonempty : names ≠ []) :
    visits names count current =
      (List.range count).map fun step => (current + 1 + step) % names.length := by
  have positive : 0 < names.length := List.length_pos_of_ne_nil nonempty
  induction count generalizing current with
  | zero => rfl
  | succ count inductionHypothesis =>
      rw [visits, found_of_nodup nodup (Nat.mod_lt _ positive), inductionHypothesis,
        List.range_succ_eq_map, List.map_cons, List.map_map, Nat.add_zero]
      congr 1
      apply List.map_congr_left
      intro step _
      rw [Function.comp_apply, Nat.add_assoc, Nat.mod_add_mod]
      congr 1
      omega

theorem rotate_range (count start : Nat) : (List.range count).rotate start =
    (List.range count).map fun step => (start + step) % count := by
  apply List.ext_getElem
  · simp
  · intro step _ _
    simp [List.getElem_rotate, Nat.add_comm]

omit [LawfulBEq Name] in
/-- The stop after a visited one is the next after the first of its name. -/
theorem visits_succ {count current step stop : Nat}
    (isNext : (visits names count current)[step + 1]? = some stop) :
    ∃ before, (visits names count current)[step]? = some before ∧
      stop = (found names before + 1) % names.length := by
  induction count generalizing current step with
  | zero => cases isNext
  | succ count inductionHypothesis =>
      rw [visits, List.getElem?_cons_succ] at isNext
      cases step with
      | zero =>
          cases count with
          | zero => cases isNext
          | succ count =>
              rw [visits, List.getElem?_cons_zero] at isNext
              exact ⟨_, rfl, (Option.some.inj isNext).symm⟩
      | succ step =>
          obtain ⟨before, isBefore, isStop⟩ := inductionHypothesis isNext
          exact ⟨before, by rw [visits, List.getElem?_cons_succ, isBefore], isStop⟩

theorem eq_of_succ_mod_eq {count first second : Nat} (isFirst : first < count)
    (isSecond : second < count) (same : (first + 1) % count = (second + 1) % count) :
    first = second := by
  have congruent : first ≡ second [MOD count] := Nat.ModEq.add_right_cancel' 1 same
  rwa [Nat.ModEq, Nat.mod_eq_of_lt isFirst, Nat.mod_eq_of_lt isSecond] at congruent

theorem exists_step (start : Nat) {count stop : Nat} (isStop : stop < count) :
    ∃ step < count, (start + step) % count = stop := by
  have positive : 0 < count := Nat.zero_lt_of_lt isStop
  refine ⟨(stop + (count - start % count)) % count, Nat.mod_lt _ positive, ?_⟩
  have split := Nat.div_add_mod start count
  have small := Nat.mod_lt start positive
  have whole : start + (stop + (count - start % count)) =
      stop + count * (start / count + 1) := by
    rw [Nat.mul_add, Nat.mul_one]
    omega
  rw [Nat.add_mod_mod, whole, Nat.add_mul_mod_self_left, Nat.mod_eq_of_lt isStop]

omit [LawfulBEq Name] in
theorem visits_zero {count : Nat} (positive : 0 < count) (current : Nat) :
    (visits names count current)[0]? = some ((current + 1) % names.length) := by
  cases count with
  | zero => exact absurd positive (Nat.lt_irrefl 0)
  | succ count => rfl

/-- As many steps as there are stops go around the ring just where the names are distinct. -/
theorem visits_all_iff {current : Nat} (isCurrent : current < names.length)
    (stands : found names current = current) :
    (∃ start, visits names names.length current = (List.range names.length).rotate start) ↔
      names.Nodup := by
  have positive : 0 < names.length := Nat.zero_lt_of_lt isCurrent
  have nonempty : names ≠ [] := List.ne_nil_of_length_pos positive
  constructor
  · rintro ⟨start, around⟩
    rw [rotate_range] at around
    have visited : ∀ step < names.length,
        (visits names names.length current)[step]? = some ((start + step) % names.length) := by
      intro step isStep
      rw [around, List.getElem?_map, List.getElem?_range isStep, Option.map_some]
    have first : (current + 1) % names.length = start % names.length :=
      Option.some.inj ((visits_zero positive current).symm.trans (visited 0 positive))
    rw [List.nodup_iff_getElem?_ne_getElem?]
    intro earlier later less isLater same
    have before := found_lt less isLater same
    obtain ⟨step, isStep, isStop⟩ := exists_step start isLater
    have after : (start + (step + 1)) % names.length = (later + 1) % names.length := by
      rw [← Nat.add_assoc, ← Nat.mod_add_mod, isStop]
    by_cases last : step + 1 = names.length
    · -- The later stop is the one that the walk began at.
      rw [last, Nat.add_mod_right, ← first] at after
      rw [← eq_of_succ_mod_eq isCurrent isLater after, stands] at before
      exact Nat.lt_irrefl _ before
    · -- The walk goes on behind the earlier stop.
      obtain ⟨stop, isVisited, isNext⟩ := visits_succ (visited (step + 1) (by omega))
      rw [visited step isStep, isStop, Option.some.injEq] at isVisited
      rw [← isVisited, after] at isNext
      exact Nat.ne_of_gt before (eq_of_succ_mod_eq isLater (before.trans isLater) isNext)
  · intro nodup
    refine ⟨current + 1, ?_⟩
    rw [visits_of_nodup nodup _ _ nonempty, rotate_range]

omit [LawfulBEq Name] in
theorem lt_of_mem_visits (nonempty : names ≠ []) {count current stop : Nat}
    (member : stop ∈ visits names count current) : stop < names.length := by
  induction count generalizing current with
  | zero => cases member
  | succ count inductionHypothesis =>
      rcases List.mem_cons.mp member with rfl | later
      · exact Nat.mod_lt _ (List.length_pos_of_ne_nil nonempty)
      · exact inductionHypothesis later

omit [LawfulBEq Name] in
omit [BEq Name] [LawfulBEq Name] in
theorem map_getElem?_range (values : List Name) :
    ((List.range values.length).map fun stop => values[stop]?) = values.map some := by
  apply List.ext_getElem
  · simp
  · intro stop _ _
    simp

end Rings
