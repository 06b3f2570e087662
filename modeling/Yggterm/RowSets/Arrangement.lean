import Mathlib.Order.WithBot
import Yggterm.RowSets.Model
import Yggterm.RowSets.Placement

/-!
# What the hand said

An arrangement answers for a row in one of three ways: under a head, loose at the top level, or
not at all, and then its seat decides.  The sidebar's sets start from the arrangement and take
in the seats of the rows it does not answer for.
-/

namespace Yggterm.RowSets

open HashMaps Runs

universe u

variable {Row : Type u} [DecidableEq Row]

namespace RowArrangement

def attachWithChildren (arrangement : RowArrangement Row) (head member : Row)
    (index : Option Nat) (allowNest : Bool) :
    Except (RowSetRefusal Row) Unit × RowArrangement Row :=
  match arrangement.sets.insertMemberWithChildren head member index allowNest with
  | (.error refusal, sets) => (.error refusal, { arrangement with sets })
  | (.ok (), sets) => (.ok (), { sets, detached := arrangement.detached.erase member })

def attach (arrangement : RowArrangement Row) (head member : Row) (index : Option Nat) :
    Except (RowSetRefusal Row) Unit × RowArrangement Row :=
  arrangement.attachWithChildren head member index false

/-- Out to the top level, and that was a choice. -/
def detach (arrangement : RowArrangement Row) (member : Row) : RowArrangement Row where
  sets := arrangement.sets.detach member
  detached := insert member arrangement.detached

/-- The seat decides again. -/
def clear (arrangement : RowArrangement Row) (member : Row) : RowArrangement Row where
  sets := arrangement.sets.detach member
  detached := arrangement.detached.erase member

/-- Forget the rows that are no longer there; `order` is that of the `detached` table. -/
def retainLive (arrangement : RowArrangement Row) (iteration : Iteration Row)
    (order : IterationOrder Row) (live : Finset Row) : Bool × RowArrangement Row :=
  let retained := arrangement.sets.retainLive iteration live
  let gone := departed order arrangement.detached live
  (retained.1 || gone ≠ [],
    { sets := retained.2
      detached := gone.foldl (fun detached path => detached.erase path) arrangement.detached })

/-- What is done to an arrangement by hand, and what becomes of it when rows depart. -/
inductive Gesture (Row : Type u) where
  | attach (head member : Row) (index : Option Nat)
  | attachWithChildren (head member : Row) (index : Option Nat) (allowNest : Bool)
  | detach (member : Row)
  | clear (member : Row)
  | retainLive (iteration : Iteration Row) (order : IterationOrder Row) (live : Finset Row)

def perform (arrangement : RowArrangement Row) : Gesture Row → RowArrangement Row
  | .attach head member index => (arrangement.attach head member index).2
  | .attachWithChildren head member index allowNest =>
      (arrangement.attachWithChildren head member index allowNest).2
  | .detach member => arrangement.detach member
  | .clear member => arrangement.clear member
  | .retainLive iteration order live => (arrangement.retainLive iteration order live).2

/-- The arrangement after a sequence of gestures. -/
def arranged (gestures : List (Gesture Row)) : RowArrangement Row :=
  run perform RowArrangement.default gestures

end RowArrangement

/-! ## The sidebar's sets -/

/-- The order of `OutlineKey`: numbers first, element by element. -/
def OutlineKey.rank : OutlineKey → WithTop (List Nat)
  | .numbered segments => some segments
  | .unnumbered => none

/-- `seat_of`: of two rows with one path the later wins. -/
def seatOf (rows : List (Row × Option (List Char))) (path : Row) : OutlineKey :=
  match rows.reverse.find? fun row => row.1 = path with
  | some row => parseOutlineKey row.2
  | none => .unnumbered

/-- One turn of the loop over the collapsed heads. -/
def shutHead (sets : RowSets Row) (head : Row) : RowSets Row :=
  if sets.membersOf head ≠ [] then sets.setCollapsed head true else sets

/-- `sidebar_row_sets`; `order` is that of the table of collapsed heads. -/
def sidebarRowSets (rows : List (Row × Option (List Char))) (arrangement : RowArrangement Row)
    (order : IterationOrder Row) (collapsedHeads : Finset Row) : RowSets Row :=
  run shutHead
    ((outlineRowSetsWith rows arrangement).sortMembersByKey fun path => (seatOf rows path).rank)
    (order.keys collapsedHeads)

/-! ## No mutator invents a member or a flag -/

variable {sets : RowSets Row}

theorem WellFormed.parentOf_dissolve_of_none (wellFormed : sets.WellFormed) {path : Row}
    (loose : sets.parentOf path = none) (head : Row) :
    (sets.dissolve head).2.parentOf path = none := by
  rw [parentOf_dissolve wellFormed]
  split
  · rfl
  · split
    · next inside =>
        rw [wellFormed.parent_iff.mpr inside] at loose
        cases loose
    · exact loose

theorem parentOf_detach_of_none {path : Row} (loose : sets.parentOf path = none) (member : Row) :
    (sets.detach member).parentOf path = none := by
  rw [parentOf_detach]
  split
  · rfl
  · exact loose

theorem collapsed_detach_subset (sets : RowSets Row) (member : Row) :
    (sets.detach member).collapsed ⊆ sets.collapsed := by
  rw [RowSets.detach]
  split
  · exact Finset.Subset.refl _
  · split
    · exact Finset.Subset.refl _
    · dsimp only
      split
      · exact Finset.erase_subset _ _
      · exact Finset.Subset.refl _

theorem collapsed_dissolve_subset (sets : RowSets Row) (head : Row) :
    (sets.dissolve head).2.collapsed ⊆ sets.collapsed := by
  rw [RowSets.dissolve]
  split
  · exact Finset.erase_subset _ _
  · dsimp only
    split
    · exact Finset.erase_subset _ _
    · split
      · exact (Finset.erase_subset _ _).trans (Finset.erase_subset _ _)
      · exact Finset.erase_subset _ _

theorem collapsed_insert_subset (sets : RowSets Row) (head member : Row) (index : Option Nat)
    (allowNest : Bool) :
    (sets.insertMemberWithChildren head member index allowNest).2.collapsed ⊆
      sets.collapsed := by
  by_cases accepted : (sets.insertMemberWithChildren head member index allowNest).1 = .ok ()
  · rw [insertMemberWithChildren_of_ok accepted]
    exact collapsed_detach_subset sets member
  · rw [insertMemberWithChildren_of_error accepted]

theorem WellFormed.parentOf_dissolveAll_of_none (wellFormed : sets.WellFormed) {path : Row}
    (loose : sets.parentOf path = none) (heads : List Row) :
    (sets.dissolveAll heads).parentOf path = none := by
  induction heads generalizing sets with
  | nil => exact loose
  | cons head rest inductionHypothesis =>
      exact inductionHypothesis (wellFormed.dissolve head)
        (wellFormed.parentOf_dissolve_of_none loose head)

theorem parentOf_detachAll_of_none {path : Row} (loose : sets.parentOf path = none)
    (members : List Row) : (sets.detachAll members).parentOf path = none := by
  induction members generalizing sets with
  | nil => exact loose
  | cons member rest inductionHypothesis =>
      exact inductionHypothesis (parentOf_detach_of_none loose member)

theorem WellFormed.parentOf_retainLive_of_none (wellFormed : sets.WellFormed) {path : Row}
    (loose : sets.parentOf path = none) (iteration : Iteration Row) (live : Finset Row) :
    (sets.retainLive iteration live).2.parentOf path = none :=
  parentOf_detachAll_of_none (wellFormed.parentOf_dissolveAll_of_none loose _)
    (departed iteration.parent _ live)

theorem collapsed_dissolveAll_subset (sets : RowSets Row) (heads : List Row) :
    (sets.dissolveAll heads).collapsed ⊆ sets.collapsed := by
  induction heads generalizing sets with
  | nil => exact Finset.Subset.refl _
  | cons head rest inductionHypothesis =>
      exact (inductionHypothesis (sets.dissolve head).2).trans
        (collapsed_dissolve_subset sets head)

theorem collapsed_detachAll_subset (sets : RowSets Row) (members : List Row) :
    (sets.detachAll members).collapsed ⊆ sets.collapsed := by
  induction members generalizing sets with
  | nil => exact Finset.Subset.refl _
  | cons member rest inductionHypothesis =>
      exact (inductionHypothesis (sets.detach member)).trans (collapsed_detach_subset sets member)

theorem collapsed_retainLive_subset (sets : RowSets Row) (iteration : Iteration Row)
    (live : Finset Row) : (sets.retainLive iteration live).2.collapsed ⊆ sets.collapsed := by
  intro head inside
  apply collapsed_dissolveAll_subset sets (departed iteration.members sets.members.keys live)
  exact collapsed_detachAll_subset _ _ ((mem_foldl_erase _ _ head).mp inside).1

/-! ## The two stores stay apart -/

/-- No row that was pulled out has a head, and the hand shuts nothing. -/
structure HandKept (arrangement : RowArrangement Row) : Prop where
  wellFormed : arrangement.sets.WellFormed
  loose : ∀ path ∈ arrangement.detached, arrangement.sets.parentOf path = none
  unshut : arrangement.sets.collapsed = ∅

theorem attachWithChildren_sets (arrangement : RowArrangement Row) (head member : Row)
    (index : Option Nat) (allowNest : Bool) :
    (arrangement.attachWithChildren head member index allowNest).2.sets =
      (arrangement.sets.insertMemberWithChildren head member index allowNest).2 := by
  rw [RowArrangement.attachWithChildren]
  rcases arrangement.sets.insertMemberWithChildren head member index allowNest with
    ⟨refusal | _, sets⟩ <;> rfl

theorem attachWithChildren_detached (arrangement : RowArrangement Row) (head member : Row)
    (index : Option Nat) (allowNest : Bool) :
    (arrangement.attachWithChildren head member index allowNest).2.detached =
      if (arrangement.sets.insertMemberWithChildren head member index allowNest).1 = .ok () then
        arrangement.detached.erase member
      else arrangement.detached := by
  rw [RowArrangement.attachWithChildren]
  rcases arrangement.sets.insertMemberWithChildren head member index allowNest with
    ⟨refusal | _, sets⟩ <;> simp

theorem handKept_attachWithChildren {arrangement : RowArrangement Row}
    (kept : HandKept arrangement) (head member : Row) (index : Option Nat) (allowNest : Bool) :
    HandKept (arrangement.attachWithChildren head member index allowNest).2 := by
  constructor
  · rw [attachWithChildren_sets]
    exact kept.wellFormed.insertMemberWithChildren head member index allowNest
  · rw [attachWithChildren_sets, attachWithChildren_detached]
    split
    · next accepted =>
        intro path inside
        obtain ⟨different, wasDetached⟩ := Finset.mem_erase.mp inside
        rw [(inserts_of_accepted kept.wellFormed accepted).parentOf_eq, if_neg different]
        exact kept.loose path wasDetached
    · next refused =>
        rw [insertMemberWithChildren_of_error refused]
        exact kept.loose
  · rw [attachWithChildren_sets]
    apply Finset.subset_empty.mp
    rw [← kept.unshut]
    exact collapsed_insert_subset arrangement.sets head member index allowNest

theorem handKept_perform {arrangement : RowArrangement Row} (kept : HandKept arrangement)
    (gesture : RowArrangement.Gesture Row) : HandKept (arrangement.perform gesture) := by
  cases gesture with
  | attach head member index => exact handKept_attachWithChildren kept head member index false
  | attachWithChildren head member index allowNest =>
      exact handKept_attachWithChildren kept head member index allowNest
  | detach member =>
      refine ⟨kept.wellFormed.detach member, ?_, Finset.subset_empty.mp
        (kept.unshut ▸ collapsed_detach_subset arrangement.sets member)⟩
      intro path inside
      change (arrangement.sets.detach member).parentOf path = none
      rw [parentOf_detach]
      split
      · rfl
      · next different =>
          exact kept.loose path (Finset.mem_of_mem_insert_of_ne inside different)
  | clear member =>
      refine ⟨kept.wellFormed.detach member, ?_, Finset.subset_empty.mp
        (kept.unshut ▸ collapsed_detach_subset arrangement.sets member)⟩
      intro path inside
      exact parentOf_detach_of_none (kept.loose path (Finset.mem_of_mem_erase inside)) member
  | retainLive iteration order live =>
      refine ⟨kept.wellFormed.retainLive iteration live, ?_, Finset.subset_empty.mp
        (kept.unshut ▸ collapsed_retainLive_subset arrangement.sets iteration live)⟩
      intro path inside
      apply kept.wellFormed.parentOf_retainLive_of_none
      exact kept.loose path ((mem_foldl_erase _ _ path).mp inside).1

theorem handKept_default : HandKept (RowArrangement.default : RowArrangement Row) where
  wellFormed := wellFormed_empty
  loose _ inside := absurd inside (Finset.notMem_empty _)
  unshut := rfl

theorem handKept_arranged (gestures : List (RowArrangement.Gesture Row)) :
    HandKept (RowArrangement.arranged gestures) := by
  rw [RowArrangement.arranged]
  apply run_invariant
  · exact fun _ gesture kept => handKept_perform kept gesture
  · exact handKept_default

/-! ## The seats fill in -/

/-- The seats give no head to a row the hand answered for. -/
theorem not_answered_of_mem_seatInserts {seated : List (Row × List Nat)}
    {arrangement : RowArrangement Row} {insert : Row × Row}
    (inside : insert ∈ seatInserts seated arrangement) :
    arrangement.answered insert.2 = false := by
  obtain ⟨row, _, found⟩ := List.mem_filterMap.mp inside
  split at found
  · cases found
  · next unanswered =>
      obtain ⟨head, _, rfl⟩ := Option.map_eq_some_iff.mp found
      simpa using unanswered

/-- What the seats leave of an arrangement. -/
structure Fills (arrangement : RowArrangement Row) (sets : RowSets Row) : Prop where
  wellFormed : sets.WellFormed
  answered : ∀ path, arrangement.answered path = true →
    sets.parentOf path = arrangement.sets.parentOf path
  unshut : sets.collapsed = ∅

theorem fills_seatInsert {arrangement : RowArrangement Row} (fills : Fills arrangement sets)
    {insert : Row × Row} (unanswered : arrangement.answered insert.2 = false) :
    Fills arrangement (seatInsert sets insert) := by
  constructor
  · exact fills.wellFormed.insertMemberWithChildren insert.1 insert.2 none false
  · intro path isAnswered
    rw [← fills.answered path isAnswered]
    rcases insertMemberWithChildren_cases fills.wellFormed.acyclic insert.1 insert.2 none false with
      ⟨_, same⟩ | inserts
    · rw [seatInsert, insertMember, same]
    · refine (inserts.parentOf_eq path).trans (if_neg ?_)
      rintro rfl
      rw [unanswered] at isAnswered
      cases isAnswered
  · apply Finset.subset_empty.mp
    rw [← fills.unshut]
    exact collapsed_insert_subset sets insert.1 insert.2 none false

theorem fills_outlineRowSetsWith {arrangement : RowArrangement Row} (kept : HandKept arrangement)
    (rows : List (Row × Option (List Char))) :
    Fills arrangement (outlineRowSetsWith rows arrangement) := by
  have filled : ∀ inserts : List (Row × Row),
      (∀ insert ∈ inserts, arrangement.answered insert.2 = false) →
        ∀ sets : RowSets Row, Fills arrangement sets →
          Fills arrangement (run seatInsert sets inserts) := by
    intro inserts
    induction inserts with
    | nil => exact fun _ _ fills => fills
    | cons insert rest inductionHypothesis =>
        intro unanswered sets fills
        apply inductionHypothesis fun other inRest =>
          unanswered other (List.mem_cons_of_mem insert inRest)
        exact fills_seatInsert fills (unanswered insert List.mem_cons_self)
  exact filled _ (fun _ => not_answered_of_mem_seatInserts) _
    ⟨kept.wellFormed, fun _ _ => rfl, kept.unshut⟩

/-! ## Shut heads -/

/-- A flag goes on a row that heads a set, and nothing else changes. -/
structure ShutsHeads (before after : RowSets Row) : Prop where
  members : after.members = before.members
  parent : after.parent = before.parent
  heads : ∀ head ∈ after.collapsed, after.membersOf head ≠ []

theorem ShutsHeads.shutHead {before after : RowSets Row} (shuts : ShutsHeads before after)
    (head : Row) : ShutsHeads before (RowSets.shutHead after head) := by
  rw [RowSets.shutHead]
  split
  · next isHead =>
      refine ⟨shuts.members, shuts.parent, ?_⟩
      intro other isShut
      rcases Finset.mem_insert.mp isShut with rfl | wasShut
      · exact isHead
      · exact shuts.heads other wasShut
  · exact shuts

/-- The hand wins over the seat: a row is not both pulled out and a member, and in the sidebar a
row the hand put under a head has that head, a row it pulled out has none, and what is shut
heads a set. -/
theorem hand_wins (gestures : List (RowArrangement.Gesture Row))
    (rows : List (Row × Option (List Char))) (order : IterationOrder Row)
    (collapsedHeads : Finset Row) :
    let arrangement := RowArrangement.arranged gestures
    let sidebar := sidebarRowSets rows arrangement order collapsedHeads
    (∀ path ∈ arrangement.detached, ∀ head, path ∉ arrangement.sets.membersOf head) ∧
      (∀ path head, arrangement.sets.parentOf path = some head →
        sidebar.parentOf path = some head) ∧
      (∀ path ∈ arrangement.detached, sidebar.parentOf path = none) ∧
      ∀ head ∈ sidebar.collapsed, sidebar.membersOf head ≠ [] := by
  intro arrangement sidebar
  have kept : HandKept arrangement := handKept_arranged gestures
  have fills := fills_outlineRowSetsWith kept rows
  have shuts : ShutsHeads ((outlineRowSetsWith rows arrangement).sortMembersByKey
      fun path => (seatOf rows path).rank) sidebar := by
    apply run_invariant (fun _ head shuts => shuts.shutHead head)
    refine ⟨rfl, rfl, ?_⟩
    intro head isShut
    change head ∈ (outlineRowSetsWith rows arrangement).collapsed at isShut
    rw [fills.unshut] at isShut
    cases isShut
  have sameParent : ∀ path, arrangement.answered path = true →
      sidebar.parentOf path = arrangement.sets.parentOf path := by
    intro path isAnswered
    rw [← fills.answered path isAnswered, parentOf, shuts.parent]
    rfl
  refine ⟨?_, ?_, ?_, shuts.heads⟩
  · intro path isDetached head isMember
    have loose := kept.loose path isDetached
    rw [kept.wellFormed.parent_iff.mpr isMember] at loose
    cases loose
  · intro path head held
    rw [sameParent path (by simp [RowArrangement.answered, held])]
    exact held
  · intro path isDetached
    rw [sameParent path (by simp [RowArrangement.answered, isDetached])]
    exact kept.loose path isDetached

end Yggterm.RowSets
