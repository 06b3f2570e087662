import Mathlib.Data.List.Nodup
import Mathlib.Data.List.Sort

/-!
# Keeping the newest of several items

A store with a cap sorts its items and drops from the old end.  Which items go is
decided by how many others are newer, whatever order the items were listed in.
-/

namespace Newest

universe u v

variable {Item : Type u} [LinearOrder Item]

/-- How many items are newer than the given one. -/
def newer (items : List Item) (item : Item) : Nat :=
  items.countP fun other => decide (item < other)

/-- The items in excess of the cap, oldest first. -/
def oldest (cap : Nat) (items : List Item) : List Item :=
  (items.mergeSort fun first second => decide (first ≤ second)).take (items.length - cap)

theorem newer_perm {first second : List Item} (sameItems : first.Perm second) (item : Item) :
    newer first item = newer second item :=
  sameItems.countP_eq _

theorem newer_anti {items : List Item} {first second : Item} (order : first ≤ second) :
    newer items second ≤ newer items first := by
  apply List.countP_mono_left
  intro other _ above
  exact decide_eq_true (lt_of_le_of_lt order (of_decide_eq_true above))

/-- An item is not newer than itself. -/
theorem newer_lt_length {items : List Item} {item : Item} (member : item ∈ items) :
    newer items item < items.length := by
  apply lt_of_le_of_ne List.countP_le_length
  intro allAbove
  exact lt_irrefl item (of_decide_eq_true (List.countP_eq_length.mp allAbove item member))

/-- Only the items above the given one are counted. -/
theorem newer_congr {first second : List Item} {item : Item} (firstDistinct : first.Nodup)
    (secondDistinct : second.Nodup)
    (sameAbove : ∀ other, item < other → (other ∈ first ↔ other ∈ second)) :
    newer first item = newer second item := by
  unfold newer
  rw [List.countP_eq_length_filter, List.countP_eq_length_filter]
  apply List.Perm.length_eq
  apply (List.perm_ext_iff_of_nodup (firstDistinct.filter _) (secondDistinct.filter _)).mpr
  intro other
  simp only [List.mem_filter, decide_eq_true_eq]
  constructor
  · rintro ⟨member, above⟩
    exact ⟨(sameAbove other above).mp member, above⟩
  · rintro ⟨member, above⟩
    exact ⟨(sameAbove other above).mpr member, above⟩

/-- A list that rises from its front to its back is divided by the counts. -/
theorem mem_front_iff_of_rising {front back : List Item} (item : Item)
    (rising : (front ++ back).Pairwise (· < ·)) :
    item ∈ front ↔ item ∈ front ++ back ∧ back.length ≤ newer (front ++ back) item := by
  obtain ⟨frontRising, backRising, across⟩ := List.pairwise_append.mp rising
  have counted : newer (front ++ back) item = newer front item + newer back item :=
    List.countP_append
  rw [counted, List.mem_append]
  constructor
  · intro inFront
    have allAbove : newer back item = back.length := by
      apply List.countP_eq_length.mpr
      intro other inBack
      exact decide_eq_true (across item inFront other inBack)
    exact ⟨Or.inl inFront, by omega⟩
  · rintro ⟨inFront | inBack, many⟩
    · exact inFront
    · exfalso
      have noneAbove : newer front item = 0 := by
        apply List.countP_eq_zero.mpr
        intro other inFront above
        exact lt_asymm (across other inFront item inBack) (of_decide_eq_true above)
      have bounded := newer_lt_length inBack
      omega

theorem rising_mergeSort {items : List Item} (distinct : items.Nodup) :
    (items.mergeSort fun first second => decide (first ≤ second)).Pairwise (· < ·) := by
  have sorted := List.pairwise_mergeSort' (· ≤ ·) items
  have stillDistinct : (items.mergeSort fun first second => decide (first ≤ second)).Nodup :=
    (List.mergeSort_perm items _).nodup_iff.mpr distinct
  exact (sorted.and stillDistinct).imp fun order => lt_of_le_of_ne order.1 order.2

/-- An item is among the oldest exactly when the cap is filled by newer ones. -/
theorem mem_oldest_iff {cap : Nat} {items : List Item} {item : Item} (distinct : items.Nodup) :
    item ∈ oldest cap items ↔ item ∈ items ∧ cap ≤ newer items item := by
  by_cases fits : items.length ≤ cap
  · rw [oldest, Nat.sub_eq_zero_of_le fits, List.take_zero]
    constructor
    · intro member
      exact absurd member List.not_mem_nil
    · rintro ⟨member, many⟩
      have bounded := newer_lt_length member
      omega
  · have parts := List.take_append_drop (items.length - cap)
      (items.mergeSort fun first second => decide (first ≤ second))
    have rising := rising_mergeSort distinct
    rw [← parts] at rising
    have divided := mem_front_iff_of_rising item rising
    rw [parts, List.length_drop, List.length_mergeSort,
      newer_perm (List.mergeSort_perm items _), List.mem_mergeSort] at divided
    rw [oldest, divided]
    constructor
    · rintro ⟨member, many⟩
      exact ⟨member, by omega⟩
    · rintro ⟨member, many⟩
      exact ⟨member, by omega⟩

/-- What is left without the oldest fits the cap. -/
theorem length_le_of_not_mem_oldest {cap : Nat} {items kept : List Item} (distinct : kept.Nodup)
    (remaining : ∀ item ∈ kept, item ∈ items ∧ item ∉ oldest cap items) : kept.length ≤ cap := by
  have parts := List.take_append_drop (items.length - cap)
    (items.mergeSort fun first second => decide (first ≤ second))
  have covered : kept ⊆ (items.mergeSort fun first second => decide (first ≤ second)).drop
      (items.length - cap) := by
    intro item member
    obtain ⟨inItems, notOldest⟩ := remaining item member
    have inSorted : item ∈ items.mergeSort fun first second => decide (first ≤ second) :=
      List.mem_mergeSort.mpr inItems
    rw [← parts] at inSorted
    exact (List.mem_append.mp inSorted).resolve_left notOldest
  have bounded := distinct.length_le_of_subset covered
  rw [List.length_drop, List.length_mergeSort] at bounded
  omega

/-! ## A newest item at the end -/

theorem takeWhile_append_of_split {Value : Type u} {test : Value → Bool} {front back : List Value}
    (inFront : ∀ value ∈ front, test value = true)
    (inBack : ∀ value ∈ back, test value = false) : (front ++ back).takeWhile test = front := by
  rw [List.takeWhile_append_of_pos inFront]
  cases back with
  | nil => simp
  | cons value rest => simp [inBack value List.mem_cons_self]

section ByKey

variable {Value : Type v} (key : Value → Item)

theorem trans_byKey (first second third : Value) (below : decide (key first ≤ key second) = true)
    (above : decide (key second ≤ key third) = true) : decide (key first ≤ key third) = true :=
  decide_eq_true ((of_decide_eq_true below).trans (of_decide_eq_true above))

theorem total_byKey (first second : Value) :
    (decide (key first ≤ key second) || decide (key second ≤ key first)) = true := by
  simpa using le_total (key first) (key second)

theorem pairwise_mergeSort_byKey (items : List Value) :
    (items.mergeSort fun first second => decide (key first ≤ key second)).Pairwise
      fun first second => key first ≤ key second :=
  (List.pairwise_mergeSort (trans_byKey key) (total_byKey key) items).imp of_decide_eq_true

/-- The sort is stable, so an item at the end that nothing is above stays at the end. -/
theorem mergeSort_concat (items : List Value) {last : Value}
    (newest : ∀ item ∈ items, key item ≤ key last) :
    (items ++ [last]).mergeSort (fun first second => decide (key first ≤ key second)) =
      items.mergeSort (fun first second => decide (key first ≤ key second)) ++ [last] := by
  -- in a sorted list an item stands before the first one that it is not above
  have behind : ∀ {values front back : List Value} {item : Value},
      values.mergeSort (fun first second => decide (key first ≤ key second)) =
        front ++ item :: back → ∀ other ∈ back, (!decide (key item ≤ key other)) = false := by
    intro values front back item sorted other inBack
    have rising := pairwise_mergeSort_byKey key values
    rw [sorted] at rising
    have itemFirst := (List.pairwise_cons.mp (List.pairwise_append.mp rising).2.1).1
    simpa using itemFirst other inBack
  induction items with
  | nil => simp
  | cons item rest inductionHypothesis =>
      have restSorted := inductionHypothesis fun other inRest =>
        newest other (List.mem_cons_of_mem item inRest)
      obtain ⟨front, back, sorted, parts, above⟩ :=
        List.mergeSort_cons (trans_byKey key) (total_byKey key) item (rest ++ [last])
      obtain ⟨frontRest, backRest, sortedRest, partsRest, aboveRest⟩ :=
        List.mergeSort_cons (trans_byKey key) (total_byKey key) item rest
      have lastBehind : ∀ other ∈ backRest ++ [last], (!decide (key item ≤ key other)) = false := by
        intro other inside
        rcases List.mem_append.mp inside with inBack | isLast
        · exact behind sortedRest other inBack
        · obtain rfl := List.mem_singleton.mp isLast
          simpa using newest item List.mem_cons_self
      have whole : front ++ back = frontRest ++ (backRest ++ [last]) := by
        rw [← parts, restSorted, partsRest, List.append_assoc]
      have sameFront : front = frontRest := by
        rw [← takeWhile_append_of_split above (behind sorted), whole,
          takeWhile_append_of_split aboveRest lastBehind]
      rw [sameFront] at whole
      rw [List.cons_append, sorted, sortedRest, sameFront, List.append_cancel_left whole,
        List.append_assoc, List.cons_append]

end ByKey

end Newest
