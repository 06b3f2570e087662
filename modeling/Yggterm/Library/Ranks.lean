import Mathlib.Data.List.Nodup
import Mathlib.Data.List.Sort

/-!
# The first of a sorted list

A stable sort puts the highest rank first and keeps the order of items of one rank.  Which items
come first is told from how many stand ahead of them, without the sorted list.
-/

namespace Ranks

universe u v

variable {Item : Type u} {Rank : Type v} [LinearOrder Rank] (rank : Item → Rank)

/-- A place of a list goes before another: it ranks higher, or it ranks the same and is earlier. -/
def Before (place other : Item × Nat) : Prop :=
  rank other.1 < rank place.1 ∨ rank place.1 = rank other.1 ∧ place.2 < other.2

instance (place other : Item × Nat) : Decidable (Before rank place other) :=
  inferInstanceAs (Decidable (_ ∨ _))

/-- How many places stand ahead of a place. -/
def ahead (items : List Item) (place : Item × Nat) : Nat :=
  items.zipIdx.countP fun other => Before rank other place

/-- The sort by falling rank, on items and on places. -/
def sort (items : List Item) : List Item :=
  items.insertionSort fun first second => rank second ≤ rank first

def sortPlaces (places : List (Item × Nat)) : List (Item × Nat) :=
  places.insertionSort fun first second => rank second.1 ≤ rank first.1

variable {rank}

theorem Before.trans {first second third : Item × Nat} (before : Before rank first second)
    (later : Before rank second third) : Before rank first third := by
  rcases before with higher | ⟨same, earlier⟩
  · rcases later with lower | ⟨sameLater, _⟩
    · exact .inl (lower.trans higher)
    · exact .inl (sameLater ▸ higher)
  · rcases later with lower | ⟨sameLater, laterEarlier⟩
    · exact .inl (same ▸ lower)
    · exact .inr ⟨same.trans sameLater, earlier.trans laterEarlier⟩

theorem Before.asymm {first second : Item × Nat} (before : Before rank first second) :
    ¬ Before rank second first := by
  rcases before with higher | ⟨same, earlier⟩
  · rintro (lower | ⟨same, _⟩)
    · exact lower.asymm higher
    · exact higher.ne same
  · rintro (lower | ⟨_, later⟩)
    · exact lower.ne same
    · exact earlier.asymm later

theorem map_fst_sortPlaces (items : List Item) :
    (sortPlaces rank items.zipIdx).map Prod.fst = sort rank items := by
  have sorted := List.map_insertionSort
    (fun first second : Item × Nat => rank second.1 ≤ rank first.1)
    (fun first second => rank second ≤ rank first) Prod.fst items.zipIdx fun _ _ _ _ => Iff.rfl
  rw [List.zipIdx_map_fst] at sorted
  exact sorted

theorem sortPlaces_perm (rank : Item → Rank) (places : List (Item × Nat)) :
    (sortPlaces rank places).Perm places :=
  List.perm_insertionSort _ _

/-- A place that is earlier than all others is inserted before those of its own rank. -/
theorem pairwise_orderedInsert {place : Item × Nat} {places : List (Item × Nat)}
    (sorted : places.Pairwise (Before rank)) (earliest : ∀ other ∈ places, place.2 < other.2) :
    (places.orderedInsert (fun first second => rank second.1 ≤ rank first.1) place).Pairwise
      (Before rank) := by
  induction places with
  | nil => exact List.pairwise_singleton _ _
  | cons first rest inductionHypothesis =>
      obtain ⟨firstBefore, restSorted⟩ := List.pairwise_cons.mp sorted
      obtain ⟨earlier, restEarlier⟩ := List.forall_mem_cons.mp earliest
      rw [List.orderedInsert_cons]
      split
      · next notLower =>
          have goesFirst : ∀ other, rank other.1 ≤ rank place.1 → place.2 < other.2 →
              Before rank place other := by
            intro other low later
            rcases low.lt_or_eq with lower | same
            · exact .inl lower
            · exact .inr ⟨same.symm, later⟩
          refine List.pairwise_cons.mpr ⟨fun other member => ?_, sorted⟩
          rcases List.mem_cons.mp member with rfl | inRest
          · exact goesFirst _ notLower earlier
          · refine goesFirst other (le_trans ?_ notLower) (restEarlier other inRest)
            rcases firstBefore other inRest with lower | ⟨same, _⟩
            · exact lower.le
            · exact same.ge
      · next lower =>
          refine List.pairwise_cons.mpr ⟨fun other member => ?_,
            inductionHypothesis restSorted restEarlier⟩
          rcases List.mem_orderedInsert _ |>.mp member with rfl | inRest
          · exact .inl (not_le.mp lower)
          · exact firstBefore other inRest

theorem pairwise_sortPlaces {places : List (Item × Nat)}
    (rising : places.Pairwise fun first second => first.2 < second.2) :
    (sortPlaces rank places).Pairwise (Before rank) := by
  induction places with
  | nil => exact .nil
  | cons first rest inductionHypothesis =>
      obtain ⟨earliest, restRising⟩ := List.pairwise_cons.mp rising
      refine pairwise_orderedInsert (inductionHypothesis restRising) fun other member => ?_
      exact earliest other ((sortPlaces_perm rank rest).subset member)

theorem pairwise_zipIdx (items : List Item) :
    items.zipIdx.Pairwise fun first second => first.2 < second.2 := by
  have indexes : (List.range' 0 items.length).Pairwise (· < ·) := List.pairwise_lt_range'
  rw [← List.zipIdx_map_snd 0 items] at indexes
  exact List.pairwise_map.mp indexes

/-- In a list that is sorted, what stands ahead of a place is what stands in front of it. -/
theorem take_eq_filter {places : List (Item × Nat)} (sorted : places.Pairwise (Before rank))
    (count : Nat) : places.take count = places.filter fun place =>
      places.countP (fun other => Before rank other place) < count := by
  induction places generalizing count with
  | nil => simp
  | cons first rest inductionHypothesis =>
      obtain ⟨firstBefore, restSorted⟩ := List.pairwise_cons.mp sorted
      have noneAhead : (first :: rest).countP (fun other => Before rank other first) = 0 := by
        refine List.countP_eq_zero.mpr fun other member => ?_
        simp only [decide_eq_true_eq]
        rcases List.mem_cons.mp member with rfl | inRest
        · exact fun before => before.asymm before
        · exact (firstBefore other inRest).asymm
      cases count with
      | zero => simp
      | succ count =>
          rw [List.take_succ_cons, inductionHypothesis restSorted,
            List.filter_cons_of_pos (by simp [noneAhead])]
          congr 1
          refine List.filter_congr fun other inRest => ?_
          rw [List.countP_cons_of_pos (by simpa using firstBefore other inRest)]
          simp

/-- The first items of a sorted list are those with few places ahead of them. -/
theorem take_sort_perm (rank : Item → Rank) (items : List Item) (count : Nat) :
    ((sort rank items).take count).Perm
      ((items.zipIdx.filter fun place => ahead rank items place < count).map Prod.fst) := by
  have sorted : (sortPlaces rank items.zipIdx).Pairwise (Before rank) :=
    pairwise_sortPlaces (pairwise_zipIdx items)
  have isPerm := sortPlaces_perm rank items.zipIdx
  rw [← map_fst_sortPlaces, ← List.map_take, take_eq_filter sorted]
  refine List.Perm.map _ ?_
  simp only [isPerm.countP_eq]
  exact isPerm.filter _

end Ranks
