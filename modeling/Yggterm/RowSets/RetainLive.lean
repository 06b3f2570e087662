import Yggterm.RowSets.Invariant

/-!
# What `retain_live` leaves behind

Dissolving a head and detaching a member without members are one operation on
the forest: a row is spliced out.  The frontier of live rows below a live row is
blind to splicing out a dead one, so it is the same before and after the whole
pass, in whatever order the pass works; and once every dead row is gone the
frontier is the member list itself.
-/

namespace Yggterm.RowSets

open HashMaps Forests

universe u

variable {Row : Type u} [DecidableEq Row]

/-- `ancestor` is the nearest strict ancestor of `row` that is live. -/
def NearestLive (sets : RowSets Row) (live : Finset Row) (row ancestor : Row) : Prop :=
  ancestor ∈ live ∧ Relation.TransGen sets.HeldBy row ancestor ∧
    ∀ other ∈ live, Relation.TransGen sets.HeldBy row other →
      other = ancestor ∨ Relation.TransGen sets.HeldBy ancestor other

theorem WellFormed.ancestor_iff {sets : RowSets Row} (wellFormed : sets.WellFormed)
    (row ancestor : Row) :
    wellFormed.forest.Ancestor row ancestor ↔ Relation.TransGen sets.HeldBy row ancestor := by
  have sameRelation : (fun child parent => child ∈ wellFormed.forest.children parent) =
      sets.HeldBy := by
    funext child parent
    exact propext wellFormed.heldBy_iff.symm
  rw [OrderedForest.Ancestor, sameRelation]

/-- The live rows whose nearest live ancestor is `head`, in depth-first order. -/
def WellFormed.liveBelow {sets : RowSets Row} (wellFormed : sets.WellFormed)
    (live : Finset Row) (head : Row) : List Row :=
  wellFormed.forest.frontier (· ∈ live) head

theorem WellFormed.mem_liveBelow_iff {sets : RowSets Row} (wellFormed : sets.WellFormed)
    {live : Finset Row} {row head : Row} (rowLive : row ∈ live) (headLive : head ∈ live) :
    row ∈ wellFormed.liveBelow live head ↔ sets.NearestLive live row head := by
  rw [liveBelow, OrderedForest.mem_frontier_iff (· ∈ live) _ rowLive, NearestLive]
  simp only [wellFormed.ancestor_iff, headLive, true_and]

theorem WellFormed.splices_dissolve {sets : RowSets Row} (wellFormed : sets.WellFormed)
    (head : Row) :
    OrderedForest.Splices wellFormed.forest (wellFormed.dissolve head).forest head where
  removed := by
    rw [forest_children, membersOf_dissolve wellFormed, if_pos rfl]
  spliced other different := by
    rw [forest_children, membersOf_dissolve wellFormed, if_neg different, forest_children]

theorem WellFormed.splices_detach {sets : RowSets Row} (wellFormed : sets.WellFormed)
    (member : Row) (leaf : sets.membersOf member = []) :
    OrderedForest.Splices wellFormed.forest (wellFormed.detach member).forest member where
  removed := by
    rw [forest_children, membersOf_detach wellFormed, leaf, List.filter_nil]
  spliced other _ := by
    rw [forest_children, membersOf_detach wellFormed, forest_children, leaf]
    induction sets.membersOf other with
    | nil => rfl
    | cons child rest inductionHypothesis =>
        rw [List.filter_cons, List.flatMap_cons, ← inductionHypothesis]
        by_cases isMember : child = member <;> simp [isMember]

/-! ## One step of the pass -/

/-- What every step of the pass keeps: the live rows below each live row, which
rows may still head a set, and the flags of those that do. -/
structure Reconciles (live : Finset Row) {before after : RowSets Row}
    (beforeWellFormed : before.WellFormed) (afterWellFormed : after.WellFormed) : Prop where
  liveBelow : ∀ head ∈ live, afterWellFormed.liveBelow live head =
    beforeWellFormed.liveBelow live head
  noNewHead : ∀ head, before.membersOf head = [] → after.membersOf head = []
  flags : ∀ head, after.membersOf head ≠ [] →
    (head ∈ after.collapsed ↔ head ∈ before.collapsed)

theorem Reconciles.refl (live : Finset Row) {sets : RowSets Row}
    (wellFormed : sets.WellFormed) : Reconciles live wellFormed wellFormed :=
  ⟨fun _ _ => rfl, fun _ none => none, fun _ _ => Iff.rfl⟩

theorem Reconciles.trans {live : Finset Row} {first second third : RowSets Row}
    {firstWellFormed : first.WellFormed} {secondWellFormed : second.WellFormed}
    {thirdWellFormed : third.WellFormed}
    (earlier : Reconciles live firstWellFormed secondWellFormed)
    (later : Reconciles live secondWellFormed thirdWellFormed) :
    Reconciles live firstWellFormed thirdWellFormed where
  liveBelow head headLive :=
    (later.liveBelow head headLive).trans (earlier.liveBelow head headLive)
  noNewHead head none := later.noNewHead head (earlier.noNewHead head none)
  flags head isHead := by
    have wasHead : second.membersOf head ≠ [] := fun none => isHead (later.noNewHead head none)
    exact (later.flags head isHead).trans (earlier.flags head wasHead)

/-- A flag goes only with a row that heads nothing afterwards. -/
theorem collapsed_dissolve_iff (sets : RowSets Row) (dissolved head : Row) :
    (sets.dissolve dissolved).2.membersOf head ≠ [] →
      (head ∈ (sets.dissolve dissolved).2.collapsed ↔ head ∈ sets.collapsed) := by
  have erased : ((sets.members.erase dissolved).lookup head).getD [] ≠ [] →
      head ≠ dissolved := by
    rintro occupied rfl
    exact occupied (by rw [Finmap.lookup_erase, Option.getD_none])
  unfold dissolve
  dsimp only
  split
  · intro isHead
    simp [erased isHead]
  · next grandparent held =>
      split
      · intro isHead
        simp [erased isHead]
      · next slot present =>
          split
          · intro isHead
            have different : head ≠ grandparent := by
              rintro rfl
              exact isHead (by rw [membersOf, Finmap.lookup_erase, Option.getD_none])
            rw [membersOf, lookup_erase_eq, if_neg different] at isHead
            simp [different, erased isHead]
          · intro isHead
            have notDissolved : head ≠ dissolved := by
              rintro rfl
              rw [membersOf, lookup_insert_eq] at isHead
              split at isHead
              · next isGrandparent =>
                  rw [← isGrandparent, Finmap.lookup_erase] at present
                  simp at present
              · exact isHead (by rw [Finmap.lookup_erase, Option.getD_none])
            simp [notDissolved]

theorem collapsed_detach_iff (sets : RowSets Row) (member head : Row) :
    (sets.detach member).membersOf head ≠ [] →
      (head ∈ (sets.detach member).collapsed ↔ head ∈ sets.collapsed) := by
  unfold detach
  split
  · exact fun _ => Iff.rfl
  · next holder held =>
      dsimp only
      split
      · exact fun _ => Iff.rfl
      · split
        · intro isHead
          have different : head ≠ holder := by
            rintro rfl
            exact isHead (by rw [membersOf, Finmap.lookup_erase, Option.getD_none])
          simp [different]
        · exact fun _ => Iff.rfl

theorem WellFormed.reconciles_dissolve {sets : RowSets Row} (wellFormed : sets.WellFormed)
    {live : Finset Row} {head : Row} (departed : head ∉ live) :
    Reconciles live wellFormed (wellFormed.dissolve head) where
  liveBelow other otherLive :=
    (wellFormed.splices_dissolve head).frontier_eq (· ∈ live) departed other
      fun equality => departed (equality ▸ otherLive)
  noNewHead other none := by
    rw [membersOf_dissolve wellFormed, none, List.flatMap_nil, ite_self]
  flags := collapsed_dissolve_iff sets head

theorem WellFormed.reconciles_detach {sets : RowSets Row} (wellFormed : sets.WellFormed)
    {live : Finset Row} {member : Row} (departed : member ∉ live)
    (leaf : sets.membersOf member = []) :
    Reconciles live wellFormed (wellFormed.detach member) where
  liveBelow other otherLive :=
    (wellFormed.splices_detach member leaf).frontier_eq (· ∈ live) departed other
      fun equality => departed (equality ▸ otherLive)
  noNewHead other none := by
    rw [membersOf_detach wellFormed, none, List.filter_nil]
  flags := collapsed_detach_iff sets member

/-! ## The two loops -/

theorem WellFormed.reconciles_dissolveAll {sets : RowSets Row} (wellFormed : sets.WellFormed)
    (live : Finset Row) (heads : List Row) (departed : ∀ head ∈ heads, head ∉ live) :
    Reconciles live wellFormed (wellFormed.dissolveAll heads) := by
  induction heads generalizing sets with
  | nil => exact Reconciles.refl live wellFormed
  | cons head rest inductionHypothesis =>
      have step := wellFormed.reconciles_dissolve (departed head (by simp))
      exact step.trans (inductionHypothesis (wellFormed.dissolve head)
        fun other inside => departed other (by simp [inside]))

/-- A dissolved head heads nothing at the end of the loop either. -/
theorem WellFormed.membersOf_dissolveAll_eq_nil {sets : RowSets Row}
    (wellFormed : sets.WellFormed) (heads : List Row) {head : Row} (inside : head ∈ heads) :
    (sets.dissolveAll heads).membersOf head = [] := by
  induction heads generalizing sets with
  | nil => simp at inside
  | cons first rest inductionHypothesis =>
      rw [RowSets.dissolveAll, List.foldl_cons]
      by_cases inRest : head ∈ rest
      · exact inductionHypothesis (wellFormed.dissolve first) inRest
      · obtain rfl : head = first := by simpa [inRest] using inside
        -- reconciling with the empty live set keeps "heads nothing" and no more
        have kept := (wellFormed.dissolve head).reconciles_dissolveAll ∅ rest (by simp)
        refine kept.noNewHead head ?_
        rw [membersOf_dissolve wellFormed, if_pos rfl]

theorem WellFormed.reconciles_detachAll {sets : RowSets Row} (wellFormed : sets.WellFormed)
    {live : Finset Row} (members : List Row) (departed : ∀ member ∈ members, member ∉ live)
    (leaves : ∀ member ∈ members, sets.membersOf member = []) :
    Reconciles live wellFormed (wellFormed.detachAll members) := by
  induction members generalizing sets with
  | nil => exact Reconciles.refl live wellFormed
  | cons member rest inductionHypothesis =>
      have step := wellFormed.reconciles_detach (departed member (by simp))
        (leaves member (by simp))
      refine step.trans (inductionHypothesis (wellFormed.detach member)
        (fun other inside => departed other (by simp [inside])) ?_)
      exact fun other inside => step.noNewHead other (leaves other (by simp [inside]))

theorem parentOf_detachAll (sets : RowSets Row) (members : List Row) (path : Row) :
    (sets.detachAll members).parentOf path =
      if path ∈ members then none else sets.parentOf path := by
  induction members generalizing sets with
  | nil => simp [detachAll]
  | cons member rest inductionHypothesis =>
      rw [detachAll, List.foldl_cons]
      change ((sets.detach member).detachAll rest).parentOf path = _
      rw [inductionHypothesis, parentOf_detach]
      by_cases isMember : path = member <;> simp [isMember]

/-! ## The whole pass -/

theorem mem_departed {order : IterationOrder Row} {keys live : Finset Row} {row : Row} :
    row ∈ departed order keys live ↔ row ∈ keys ∧ row ∉ live := by
  rw [departed, List.mem_filter, order.mem_keys, decide_eq_true_iff]

theorem departed_eq_nil_iff (order : IterationOrder Row) {keys live : Finset Row} :
    departed order keys live = [] ↔ keys ⊆ live := by
  rw [List.eq_nil_iff_forall_not_mem]
  simp only [mem_departed, not_and, not_not]
  exact Iff.rfl

/-- A dead row either never headed a set or was dissolved in the first loop. -/
theorem WellFormed.membersOf_dissolveAll_of_dead {sets : RowSets Row}
    (wellFormed : sets.WellFormed) (order : IterationOrder Row) {live : Finset Row}
    {row : Row} (dead : row ∉ live) :
    (sets.dissolveAll (departed order sets.members.keys live)).membersOf row = [] := by
  by_cases headed : row ∈ sets.members
  · refine wellFormed.membersOf_dissolveAll_eq_nil _ ?_
    exact mem_departed.mpr ⟨Finmap.mem_keys.mpr headed, dead⟩
  · have dissolving := wellFormed.reconciles_dissolveAll live
      (departed order sets.members.keys live) fun head inside => (mem_departed.mp inside).2
    refine dissolving.noNewHead row ?_
    by_contra occupied
    exact headed (wellFormed.mem_members_iff.mpr occupied)

/-- The second loop only detaches rows without members. -/
theorem WellFormed.reconciles_departedMembers {sets : RowSets Row}
    (wellFormed : sets.WellFormed) (iteration : Iteration Row) (live : Finset Row) :
    let dissolved := sets.dissolveAll (departed iteration.members sets.members.keys live)
    Reconciles live (wellFormed.dissolveAll (departed iteration.members sets.members.keys live))
      ((wellFormed.dissolveAll (departed iteration.members sets.members.keys live)).detachAll
        (departed iteration.parent dissolved.parent.keys live)) := by
  refine reconciles_detachAll _ _ ?_ ?_
  · exact fun member inside => (mem_departed.mp inside).2
  · exact fun member inside =>
      wellFormed.membersOf_dissolveAll_of_dead iteration.members (mem_departed.mp inside).2

section Outcome

variable {sets : RowSets Row} (wellFormed : sets.WellFormed) (iteration : Iteration Row)
  (live : Finset Row)

theorem parentOf_retainLive_of_dead {row : Row} (dead : row ∉ live) :
    (sets.retainLive iteration live).2.parentOf row = none := by
  change ((sets.dissolveAll (departed iteration.members sets.members.keys live)).detachAll
    (departed iteration.parent _ live)).parentOf row = none
  rw [parentOf_detachAll]
  split
  · rfl
  · next outside =>
      rw [mem_departed, Finmap.mem_keys] at outside
      exact Finmap.lookup_eq_none.mpr fun inside => outside ⟨inside, dead⟩

theorem mem_members_of_collapsed_retainLive {row : Row}
    (flagged : row ∈ (sets.retainLive iteration live).2.collapsed) :
    row ∈ (sets.retainLive iteration live).2.members := by
  rw [RowSets.retainLive] at flagged ⊢
  dsimp only at flagged ⊢
  rw [mem_foldl_erase, mem_departed] at flagged
  by_contra absent
  exact flagged.2 ⟨flagged.1, fun inside => absent (Finmap.mem_keys.mp inside)⟩

include wellFormed

theorem WellFormed.reconciles_retainLive :
    Reconciles live wellFormed (wellFormed.retainLive iteration live) := by
  have dissolving := wellFormed.reconciles_dissolveAll live
    (departed iteration.members sets.members.keys live)
    fun head inside => (mem_departed.mp inside).2
  have passes := dissolving.trans (wellFormed.reconciles_departedMembers iteration live)
  refine ⟨passes.liveBelow, passes.noNewHead, fun head isHead => ?_⟩
  -- only flags of rows without members are stale
  have kept : head ∈ (sets.retainLive iteration live).2.members :=
    (wellFormed.retainLive iteration live).mem_members_iff.mpr isHead
  refine Iff.trans ?_ (passes.flags head isHead)
  rw [RowSets.retainLive]
  dsimp only
  rw [mem_foldl_erase, mem_departed, Finmap.mem_keys]
  exact ⟨fun inside => inside.1, fun inside => ⟨inside, fun stale => stale.2 kept⟩⟩

/-- Every member that is left is live. -/
theorem WellFormed.member_live {member head : Row}
    (inside : member ∈ (sets.retainLive iteration live).2.membersOf head) : member ∈ live := by
  by_contra dead
  have held := (wellFormed.retainLive iteration live).parent_iff.mpr inside
  rw [parentOf_retainLive_of_dead iteration live dead] at held
  simp at held

/-- The outcome in closed form: under a live head stand the live rows whose
nearest live ancestor it was. -/
theorem WellFormed.membersOf_retainLive (head : Row) :
    (sets.retainLive iteration live).2.membersOf head =
      if head ∈ live then wellFormed.liveBelow live head else [] := by
  split
  · next headLive =>
      rw [← (wellFormed.reconciles_retainLive iteration live).liveBelow head headLive, liveBelow,
        OrderedForest.frontier_eq_children]
      · rfl
      · exact fun member inside => wellFormed.member_live iteration live inside
  · next dead =>
      have dissolved := wellFormed.membersOf_dissolveAll_of_dead iteration.members dead
      exact (wellFormed.reconciles_departedMembers iteration live).noNewHead head dissolved

theorem WellFormed.collapsed_retainLive (head : Row) :
    head ∈ (sets.retainLive iteration live).2.collapsed ↔
      head ∈ sets.collapsed ∧ (sets.retainLive iteration live).2.membersOf head ≠ [] := by
  have flags := (wellFormed.reconciles_retainLive iteration live).flags head
  have heads : head ∈ (sets.retainLive iteration live).2.members ↔ _ :=
    (wellFormed.retainLive iteration live).mem_members_iff
  constructor
  · intro flagged
    have isHead := heads.mp (mem_members_of_collapsed_retainLive iteration live flagged)
    exact ⟨(flags isHead).mp flagged, isHead⟩
  · rintro ⟨flagged, isHead⟩
    exact (flags isHead).mpr flagged

end Outcome

/-- Well-formed values are determined by their member lists and flags. -/
theorem WellFormed.ext {first second : RowSets Row} (firstWellFormed : first.WellFormed)
    (secondWellFormed : second.WellFormed)
    (sameMembers : ∀ head, first.membersOf head = second.membersOf head)
    (sameFlags : ∀ head, head ∈ first.collapsed ↔ head ∈ second.collapsed) :
    first = second := by
  have members : first.members = second.members := by
    refine Finmap.ext_lookup fun head => ?_
    rw [firstWellFormed.lookup_members, secondWellFormed.lookup_members, sameMembers]
  have parent : first.parent = second.parent := by
    refine Finmap.ext_lookup fun member => Option.ext fun head => ?_
    exact firstWellFormed.parent_iff.trans
      (sameMembers head ▸ secondWellFormed.parent_iff.symm)
  have collapsed : first.collapsed = second.collapsed := Finset.ext sameFlags
  cases first
  cases second
  simp_all

/-- With nothing to drop, the pass reports no change and leaves the value alone. -/
theorem retainLive_of_settled {sets : RowSets Row} (iteration : Iteration Row)
    {live : Finset Row} (headsLive : sets.members.keys ⊆ live)
    (membersLive : sets.parent.keys ⊆ live) (flagsLive : sets.collapsed ⊆ sets.members.keys) :
    sets.retainLive iteration live = (false, sets) := by
  have noHeads := (departed_eq_nil_iff iteration.members).mpr headsLive
  have noMembers := (departed_eq_nil_iff iteration.parent).mpr membersLive
  have noFlags := (departed_eq_nil_iff iteration.collapsed).mpr flagsLive
  simp [RowSets.retainLive, noHeads, noMembers, noFlags]

/-- The answer does not depend on the tables' orders either: a loop that finds
nothing hands its argument on to the next. -/
theorem retainLive_unchanged_iff (sets : RowSets Row) (iteration : Iteration Row)
    (live : Finset Row) :
    (sets.retainLive iteration live).1 = false ↔
      sets.members.keys ⊆ live ∧ sets.parent.keys ⊆ live ∧
        sets.collapsed ⊆ sets.members.keys := by
  constructor
  · intro unchanged
    simp only [RowSets.retainLive, Bool.or_eq_false_iff, decide_eq_false_iff_not, not_not]
      at unchanged
    rcases unchanged with ⟨⟨noHeads, noMembers⟩, noFlags⟩
    rw [noHeads, dissolveAll_nil] at noMembers noFlags
    rw [noMembers, detachAll_nil] at noFlags
    exact ⟨(departed_eq_nil_iff _).mp noHeads, (departed_eq_nil_iff _).mp noMembers,
      (departed_eq_nil_iff _).mp noFlags⟩
  · rintro ⟨headsLive, membersLive, flagsLive⟩
    rw [retainLive_of_settled iteration headsLive membersLive flagsLive]

theorem WellFormed.retainLive_order {sets : RowSets Row} (wellFormed : sets.WellFormed)
    (first second : Iteration Row) (live : Finset Row) :
    sets.retainLive first live = sets.retainLive second live := by
  refine Prod.ext ?_ ?_
  · rw [Bool.eq_iff_iff, ← not_iff_not, Bool.not_eq_true, Bool.not_eq_true,
      retainLive_unchanged_iff, retainLive_unchanged_iff]
  · have sameMembers : ∀ head, (sets.retainLive first live).2.membersOf head =
        (sets.retainLive second live).2.membersOf head := by
      intro head
      rw [wellFormed.membersOf_retainLive, wellFormed.membersOf_retainLive]
    refine (wellFormed.retainLive first live).ext (wellFormed.retainLive second live)
      sameMembers fun head => ?_
    rw [wellFormed.collapsed_retainLive, wellFormed.collapsed_retainLive, sameMembers]

/-- After `retain_live`, every live row hangs under its nearest live ancestor of
before, no dead row is left, each list keeps the old depth-first order, the order
of the tables does not matter, and a second pass has nothing to do. -/
theorem retainLive_outcome (mutations : List (Mutation Row)) (iteration : Iteration Row)
    (live : Finset Row) :
    let before := reached mutations
    let after := (before.retainLive iteration live).2
    (∀ row ∈ live, ∀ head, after.parentOf row = some head ↔ before.NearestLive live row head) ∧
    (∀ head ∈ after.members, head ∈ live) ∧
    (∀ member head, member ∈ after.membersOf head → member ∈ live) ∧
    (∀ head, (after.membersOf head).Sublist
      ((wellFormed_reached mutations).forest.listing head)) ∧
    (∀ other : Iteration Row,
      before.retainLive other live = before.retainLive iteration live) ∧
    (∀ other : Iteration Row, after.retainLive other live = (false, after)) := by
  intro before after
  have wellFormed : before.WellFormed := wellFormed_reached mutations
  have afterWellFormed : after.WellFormed := wellFormed.retainLive iteration live
  have members : ∀ head, after.membersOf head =
      if head ∈ live then wellFormed.liveBelow live head else [] :=
    wellFormed.membersOf_retainLive iteration live
  have headsLive : ∀ head ∈ after.members, head ∈ live := by
    intro head isHead
    by_contra dead
    have none := members head
    rw [if_neg dead] at none
    exact afterWellFormed.mem_members_iff.mp isHead none
  have membersLive : ∀ member head, member ∈ after.membersOf head → member ∈ live :=
    fun member head inside => wellFormed.member_live iteration live inside
  refine ⟨?_, headsLive, membersLive, ?_, ?_, ?_⟩
  · intro row rowLive head
    rw [afterWellFormed.parent_iff, members]
    split
    · next headLive => exact wellFormed.mem_liveBelow_iff rowLive headLive
    · next dead => exact ⟨by simp, fun nearest => absurd nearest.1 dead⟩
  · intro head
    rw [members]
    split
    · exact wellFormed.forest.frontier_sublist_listing _ head
    · exact List.nil_sublist _
  · exact fun other => wellFormed.retainLive_order other iteration live
  · intro other
    refine retainLive_of_settled other ?_ ?_ ?_
    · exact fun head isHead => headsLive head (Finmap.mem_keys.mp isHead)
    · intro member isMember
      rcases Finmap.mem_iff.mp (Finmap.mem_keys.mp isMember) with ⟨head, held⟩
      exact membersLive member head (afterWellFormed.parent_iff.mp held)
    · exact fun head flagged => Finmap.mem_keys.mpr
        (mem_members_of_collapsed_retainLive iteration live flagged)

end Yggterm.RowSets
