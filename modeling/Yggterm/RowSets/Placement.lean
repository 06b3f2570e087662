import Yggterm.RowSets.RetainLive

/-!
# Where a member lands

An insertion is a detach and an insert.  It is to change the member's place and nothing else, and
so it does, but for one flag: a detach that empties a set takes its flag along, also where the
set gets its only member back at once.
-/

namespace Yggterm.RowSets

open HashMaps Forests

universe u

variable {Row : Type u} [DecidableEq Row]

/-! ## When an insertion is accepted -/

theorem le_countDescendants (sets : RowSets Row) (seen : Finset Row) (stack : List Row)
    (count : Nat) : count ≤ sets.countDescendants seen stack count := by
  fun_induction countDescendants sets seen stack count with
  | case1 => exact le_rfl
  | case2 seen count current rest isSeen inductionHypothesis => exact inductionHypothesis
  | case3 seen count current rest unseen inductionHypothesis =>
      exact (Nat.le_add_right _ _).trans inductionHypothesis

theorem descendantCount_eq_zero_iff (sets : RowSets Row) (path : Row) :
    sets.descendantCount path = 0 ↔ sets.membersOf path = [] := by
  have opened : sets.descendantCount path = sets.countDescendants {path}
      (sets.membersOf path).reverse (sets.membersOf path).length := by
    rw [descendantCount, countDescendants]
    simp
  rw [opened]
  constructor
  · intro isZero
    have bound := sets.le_countDescendants {path} (sets.membersOf path).reverse
      (sets.membersOf path).length
    rw [isZero] at bound
    exact List.length_eq_zero_iff.mp (Nat.le_zero.mp bound)
  · intro childless
    rw [childless]
    simp [countDescendants]

theorem reaches_of_ancestorWalk {sets : RowSets Row} {target path through : Row} {remaining : Nat}
    (found : sets.ancestorWalk target remaining (some path) = some through) :
    Relation.ReflTransGen sets.HeldBy path target := by
  induction remaining generalizing path with
  | zero =>
      rw [ancestorWalk] at found
      split at found
      · next isTarget => exact isTarget ▸ .refl
      · cases found
  | succ remaining inductionHypothesis =>
      rw [ancestorWalk] at found
      split at found
      · next isTarget => exact isTarget ▸ .refl
      · cases held : sets.parentOf path with
        | none => simp [held, ancestorWalk] at found
        | some upper =>
            rw [held] at found
            exact .head held (inductionHypothesis found)

/-- A row is accepted under a head that is neither the row nor below it, while it holds
no rows itself or may be moved with them. -/
theorem insertMemberWithChildren_ok_iff {sets : RowSets Row} (wellFormed : sets.WellFormed)
    (head member : Row) (index : Option Nat) (allowNest : Bool) :
    (sets.insertMemberWithChildren head member index allowNest).1 = .ok () ↔
      ¬ Relation.ReflTransGen sets.HeldBy head member ∧
        (allowNest = true ∨ sets.descendantCount member = 0) := by
  rw [insertMemberWithChildren]
  by_cases same : head = member
  · subst same
    simp [Relation.ReflTransGen.refl]
  · rw [if_neg same]
    cases walk : sets.firstAncestorAtOrBelow head member with
    | some through =>
        have reaches := reaches_of_ancestorWalk walk
        simp [reaches]
    | none =>
        have separate := firstAncestorAtOrBelow_eq_none wellFormed.acyclic walk
        dsimp only
        split
        · next refused =>
            rw [Bool.and_eq_true, Bool.not_eq_true', decide_eq_true_eq] at refused
            simp [refused.1, refused.2.ne']
        · next accepted =>
            rw [Bool.and_eq_true, Bool.not_eq_true', decide_eq_true_eq, not_and_or,
              Bool.not_eq_false, Nat.not_lt, Nat.le_zero] at accepted
            simp [separate, accepted]

theorem insertMember_ok_iff {sets : RowSets Row} (wellFormed : sets.WellFormed)
    (head member : Row) (index : Option Nat) :
    (sets.insertMember head member index).1 = .ok () ↔
      head ≠ member ∧ ¬ Relation.ReflTransGen sets.HeldBy head member ∧
        sets.membersOf member = [] := by
  rw [insertMember, insertMemberWithChildren_ok_iff wellFormed, descendantCount_eq_zero_iff]
  constructor
  · rintro ⟨separate, childless⟩
    refine ⟨?_, separate, by simpa using childless⟩
    rintro rfl
    exact separate .refl
  · rintro ⟨_, separate, childless⟩
    exact ⟨separate, .inr childless⟩

theorem inserts_of_accepted {sets : RowSets Row} (wellFormed : sets.WellFormed) {head member : Row}
    {index : Option Nat} {allowNest : Bool}
    (accepted : (sets.insertMemberWithChildren head member index allowNest).1 = .ok ()) :
    Inserts sets (sets.insertMemberWithChildren head member index allowNest).2 head member := by
  rcases insertMemberWithChildren_cases wellFormed.acyclic head member index allowNest with
    ⟨refused, _⟩ | inserts
  · exact absurd accepted refused
  · exact inserts

/-! ## What an insertion leaves behind -/

theorem insertMemberWithChildren_of_error {sets : RowSets Row} {head member : Row}
    {index : Option Nat} {allowNest : Bool}
    (refused : (sets.insertMemberWithChildren head member index allowNest).1 ≠ .ok ()) :
    (sets.insertMemberWithChildren head member index allowNest).2 = sets := by
  revert refused
  rw [insertMemberWithChildren]
  split
  · exact fun _ => rfl
  · split
    · exact fun _ => rfl
    · split
      · exact fun _ => rfl
      · exact fun refused => absurd rfl refused

/-- The place an index names in a list. -/
def placeIn (slot : List Row) (index : Option Nat) : Nat :=
  index.elim slot.length fun index => min index slot.length

omit [DecidableEq Row] in
theorem placeIn_le (slot : List Row) (index : Option Nat) :
    placeIn slot index ≤ slot.length := by
  cases index with
  | none => exact le_rfl
  | some index => exact Nat.min_le_right _ _

theorem insertMemberWithChildren_of_ok {sets : RowSets Row} {head member : Row}
    {index : Option Nat} {allowNest : Bool}
    (accepted : (sets.insertMemberWithChildren head member index allowNest).1 = .ok ()) :
    (sets.insertMemberWithChildren head member index allowNest).2 =
      { sets.detach member with
        members := (sets.detach member).members.insert head
          (((sets.detach member).membersOf head).insertIdx
            (placeIn ((sets.detach member).membersOf head) index) member)
        parent := (sets.detach member).parent.insert member head } := by
  revert accepted
  rw [insertMemberWithChildren]
  split
  · intro refused
    cases refused
  · split
    · intro refused
      cases refused
    · split
      · intro refused
        cases refused
      · exact fun _ => rfl

variable {sets : RowSets Row} {head member : Row} {index : Option Nat} {allowNest : Bool}

theorem WellFormed.membersOf_insert (wellFormed : sets.WellFormed)
    (accepted : (sets.insertMemberWithChildren head member index allowNest).1 = .ok ())
    (other : Row) :
    (sets.insertMemberWithChildren head member index allowNest).2.membersOf other =
      if other = head then
        ((sets.membersOf head).filter fun path => path ≠ member).insertIdx
          (placeIn ((sets.membersOf head).filter fun path => path ≠ member) index) member
      else (sets.membersOf other).filter fun path => path ≠ member := by
  rw [insertMemberWithChildren_of_ok accepted, membersOf, lookup_insert_eq,
    membersOf_detach wellFormed, ← membersOf_detach wellFormed member other]
  split
  · rfl
  · rfl

/-- The order of the others is kept, in the member's old set and in its new one. -/
theorem filter_insertIdx_self (slot : List Row) (member : Row) (position : Nat)
    (absent : member ∉ slot) :
    (slot.insertIdx position member).filter (fun path => path ≠ member) = slot := by
  induction slot generalizing position with
  | nil => cases position <;> simp
  | cons first rest inductionHypothesis =>
      rw [List.mem_cons, not_or] at absent
      cases position with
      | zero =>
          rw [List.insertIdx_zero, List.filter_cons_of_neg (by simp)]
          apply List.filter_eq_self.mpr
          intro path inside
          have different : path ≠ member := by
            rintro rfl
            rcases List.mem_cons.mp inside with isFirst | inRest
            · exact absent.1 isFirst
            · exact absent.2 inRest
          simpa using different
      | succ position =>
          rw [List.insertIdx_succ_cons, List.filter_cons_of_pos (by simpa using Ne.symm absent.1),
            inductionHypothesis position absent.2]

/-- A set that loses its only member loses its flag. -/
theorem WellFormed.collapsed_detach_of_only (wellFormed : sets.WellFormed)
    (only : sets.membersOf head = [member]) :
    (sets.detach member).collapsed = sets.collapsed.erase head := by
  have held : sets.parent.lookup member = some head := wellFormed.parent_iff.mpr (by simp [only])
  have isSlot : sets.members.lookup head = some [member] := by
    rw [wellFormed.lookup_members, only]
    rfl
  rw [RowSets.detach, held]
  dsimp only
  rw [isSlot]
  simp

/-! ## Only the place changes -/

/-- A refused insertion changes nothing; an accepted one puts the member at its place and leaves
every other parent, the order of all others and every flag as they were. -/
def ChangesOnlyPlace (sets : RowSets Row) (head member : Row) (index : Option Nat)
    (allowNest : Bool) : Prop :=
  let answer := (sets.insertMemberWithChildren head member index allowNest).1
  let after := (sets.insertMemberWithChildren head member index allowNest).2
  let remaining := (sets.membersOf head).filter fun path => path ≠ member
  (answer ≠ .ok () → after = sets) ∧
    (answer = .ok () →
      (after.membersOf head)[placeIn remaining index]? = some member ∧
      after.parentOf member = some head ∧
      (∀ path, path ≠ member → after.parentOf path = sets.parentOf path) ∧
      (∀ other, ((after.membersOf other).filter fun path => path ≠ member) =
        (sets.membersOf other).filter fun path => path ≠ member) ∧
      ∀ other, sets.membersOf other ≠ [] → after.membersOf other ≠ [] →
        (other ∈ after.collapsed ↔ other ∈ sets.collapsed))

omit [DecidableEq Row] in
theorem eq_singleton_of_nodup {slot : List Row} (nodup : slot.Nodup) (occupied : slot ≠ [])
    (all : ∀ path ∈ slot, path = member) : slot = [member] := by
  cases slot with
  | nil => exact absurd rfl occupied
  | cons first rest =>
      obtain rfl := all first List.mem_cons_self
      cases rest with
      | nil => rfl
      | cons second rest =>
          obtain rfl := all second (by simp)
          simp at nodup

/-- The flag of a set other than one that loses its only member is kept. -/
theorem WellFormed.collapsed_insert_iff (wellFormed : sets.WellFormed)
    (accepted : (sets.insertMemberWithChildren head member index allowNest).1 = .ok ())
    (kept : ¬ (sets.membersOf head = [member] ∧ head ∈ sets.collapsed)) {other : Row}
    (wasHead : sets.membersOf other ≠ [])
    (isHead : (sets.insertMemberWithChildren head member index allowNest).2.membersOf other ≠ []) :
    other ∈ (sets.insertMemberWithChildren head member index allowNest).2.collapsed ↔
      other ∈ sets.collapsed := by
  have sameFlags : (sets.insertMemberWithChildren head member index allowNest).2.collapsed =
      (sets.detach member).collapsed := by
    rw [insertMemberWithChildren_of_ok accepted]
  rw [sameFlags]
  by_cases emptied : (sets.detach member).membersOf other = []
  · -- the set that is emptied and filled again is the one inserted into
    have onHead : other = head := by
      by_contra different
      apply isHead
      rw [wellFormed.membersOf_insert accepted, if_neg different, ← membersOf_detach wellFormed]
      exact emptied
    subst onHead
    rw [membersOf_detach wellFormed, List.filter_eq_nil_iff] at emptied
    have only : sets.membersOf other = [member] :=
      eq_singleton_of_nodup (wellFormed.nodup other) wasHead (by simpa using emptied)
    have notShut : other ∉ sets.collapsed := fun shut => kept ⟨only, shut⟩
    simp [wellFormed.collapsed_detach_of_only only, notShut]
  · exact collapsed_detach_iff sets member other emptied

theorem WellFormed.not_changesOnlyPlace (wellFormed : sets.WellFormed)
    (only : sets.membersOf head = [member]) (isShut : head ∈ sets.collapsed)
    (mayMove : allowNest = true ∨ sets.descendantCount member = 0) :
    ¬ ChangesOnlyPlace sets head member index allowNest := by
  rintro ⟨_, onlyPlace⟩
  have held : sets.HeldBy member head := wellFormed.parent_iff.mpr (by simp [only])
  have accepted : (sets.insertMemberWithChildren head member index allowNest).1 = .ok () := by
    apply (insertMemberWithChildren_ok_iff wellFormed head member index allowNest).mpr
    refine ⟨?_, mayMove⟩
    intro reaches
    exact wellFormed.acyclic member (Relation.TransGen.head' held reaches)
  obtain ⟨isPlaced, _, _, _, sameFlags⟩ := onlyPlace accepted
  have stillShut := (sameFlags head (by simp [only]) ?_).mpr isShut
  · rw [insertMemberWithChildren_of_ok accepted] at stillShut
    simp [wellFormed.collapsed_detach_of_only only] at stillShut
  · intro nothing
    rw [nothing] at isPlaced
    simp at isPlaced

/-- An insertion changes only the member's place, unless it is accepted into a shut set that the
member is alone in. -/
theorem changesOnlyPlace_iff (mutations : List (Mutation Row)) (head member : Row)
    (index : Option Nat) (allowNest : Bool) :
    ChangesOnlyPlace (reached mutations) head member index allowNest ↔
      ¬ ((reached mutations).membersOf head = [member] ∧ head ∈ (reached mutations).collapsed ∧
        (allowNest = true ∨ (reached mutations).descendantCount member = 0)) := by
  have wellFormed := wellFormed_reached mutations
  constructor
  · rintro onlyPlace ⟨only, isShut, mayMove⟩
    exact wellFormed.not_changesOnlyPlace only isShut mayMove onlyPlace
  · intro kept
    refine ⟨insertMemberWithChildren_of_error, ?_⟩
    intro accepted
    obtain ⟨_, mayMove⟩ :=
      (insertMemberWithChildren_ok_iff wellFormed head member index allowNest).mp accepted
    have inserts := inserts_of_accepted wellFormed accepted
    refine ⟨?_, ?_, ?_, ?_, ?_⟩
    · rw [wellFormed.membersOf_insert accepted, if_pos rfl, List.getElem?_insertIdx_self,
        if_pos (placeIn_le _ index)]
    · rw [inserts.parentOf_eq, if_pos rfl]
    · intro path different
      rw [inserts.parentOf_eq, if_neg different]
    · intro other
      rw [wellFormed.membersOf_insert accepted]
      split
      · next isHead =>
          rw [isHead]
          apply filter_insertIdx_self
          simp
      · rw [List.filter_filter]
        simp
    · intro other wasHead isHead
      apply wellFormed.collapsed_insert_iff accepted ?_ wasHead isHead
      rintro ⟨only, isShut⟩
      exact kept ⟨only, isShut, mayMove⟩

/-- Dropped back into the shut set it is alone in, a member opens the set. -/
theorem not_changesOnlyPlace_only_member :
    ¬ ChangesOnlyPlace
      (reached [.insertMember 1 2 none, .setCollapsed 1 true] : RowSets Nat) 1 2 none false := by
  have accepted : ((empty : RowSets Nat).insertMember 1 2 none).1 = .ok () := by
    apply (insertMember_ok_iff wellFormed_empty 1 2 none).mpr
    refine ⟨by decide, ?_, rfl⟩
    intro reaches
    rcases Relation.ReflTransGen.cases_head reaches with same | ⟨head, held, _⟩
    · cases same
    · simp [HeldBy, empty, parentOf] at held
  have members := wellFormed_empty.membersOf_insert accepted
  apply (wellFormed_reached _).not_changesOnlyPlace
  · exact members 1
  · exact Finset.mem_insert_self _ _
  · right
    rw [descendantCount_eq_zero_iff]
    exact members 2

end Yggterm.RowSets
