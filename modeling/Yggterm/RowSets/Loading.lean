import Yggterm.RowSets.Drawing

/-!
# Arrangements on disk

The file holds the member lists and the flags; the parent index is rebuilt when it is read.
Where one row stands under two heads, the head that the table yields first keeps it.  Nothing
refuses a loop of two or more heads, so what is read is a forest exactly when those first heads
form no loop.
-/

namespace Yggterm

open HashMaps Forests

universe u

/-- What goes on disk: the containment and the flags. -/
structure RowSetsWire (Row : Type u) where
  members : Finmap fun _ : Row => List Row
  collapsed : Finset Row

namespace RowSets

variable {Row : Type u}

def toWire (sets : RowSets Row) : RowSetsWire Row where
  members := sets.members
  collapsed := sets.collapsed

variable [DecidableEq Row]

/-- One member of a slot; the state is the parent index and what the slot keeps. -/
def keepMember (head : Row) (state : (Finmap fun _ : Row => Row) × List Row) (member : Row) :
    (Finmap fun _ : Row => Row) × List Row :=
  if member ≠ head ∧ member ∉ state.1 then
    (state.1.insert member head, state.2 ++ [member])
  else state

/-- The two tables while they are rebuilt. -/
structure Rebuilt (Row : Type u) where
  parent : Finmap fun _ : Row => Row
  members : Finmap fun _ : Row => List Row

end RowSets

namespace RowSetsWire

open RowSets

variable {Row : Type u} [DecidableEq Row]

def slot (wire : RowSetsWire Row) (head : Row) : List Row :=
  (wire.members.lookup head).getD []

/-- One turn of the loop over the heads. -/
def rebuildHead (wire : RowSetsWire Row) (rebuilt : Rebuilt Row) (head : Row) : Rebuilt Row :=
  let kept := (wire.slot head).foldl (keepMember head) (rebuilt.parent, [])
  { parent := kept.1
    members := if kept.2 = [] then rebuilt.members else rebuilt.members.insert head kept.2 }

def rebuild (wire : RowSetsWire Row) (heads : List Row) : Rebuilt Row :=
  heads.foldl wire.rebuildHead ⟨∅, ∅⟩

/-- `From<RowSetsWire> for RowSets`, with the order in which the file's table yields its heads. -/
def load (wire : RowSetsWire Row) (order : IterationOrder Row) : RowSets Row :=
  let rebuilt := wire.rebuild (order.keys wire.members.keys)
  { members := rebuilt.members
    parent := rebuilt.parent
    collapsed := wire.collapsed.filter fun head => head ∈ rebuilt.members }

/-- Is `member` listed under `head`, as another row? -/
def names (wire : RowSetsWire Row) (member head : Row) : Bool :=
  decide (member ≠ head) && decide (member ∈ wire.slot head)

/-- The first head that lists `member`. -/
def firstHead (wire : RowSetsWire Row) (order : IterationOrder Row) (member : Row) : Option Row :=
  (order.keys wire.members.keys).find? (wire.names member)

end RowSetsWire

namespace RowSets

open RowSetsWire

variable {Row : Type u} [DecidableEq Row]

/-! ## One slot -/

/-- What a slot adds to an index: the members that had no parent. -/
structure Keeps (head : Row) (slot : List Row) (before : Finmap fun _ : Row => Row)
    (after : (Finmap fun _ : Row => Row) × List Row) : Prop where
  nodup : after.2.Nodup
  mem_iff : ∀ member, member ∈ after.2 ↔
    member ∈ slot ∧ member ≠ head ∧ before.lookup member = none
  parent : ∀ member, after.1.lookup member =
    if member ∈ after.2 then some head else before.lookup member

theorem keepMember_spec {head member : Row} {slot : List Row}
    {before : Finmap fun _ : Row => Row} {state : (Finmap fun _ : Row => Row) × List Row}
    (keeps : Keeps head slot before state) :
    Keeps head (slot ++ [member]) before (keepMember head state member) := by
  have absent : member ∉ state.1 ↔ member ∉ state.2 ∧ before.lookup member = none := by
    rw [← Finmap.lookup_eq_none, keeps.parent]
    by_cases isKept : member ∈ state.2 <;> simp [isKept]
  rw [keepMember]
  split
  · next accepted =>
      obtain ⟨notKept, noParent⟩ := absent.mp accepted.2
      constructor
      · rw [← List.concat_eq_append]
        exact List.Nodup.concat notKept keeps.nodup
      · intro other
        rw [List.mem_append, List.mem_append, List.mem_singleton, keeps.mem_iff]
        by_cases isMember : other = member
        · subst isMember
          simp [accepted.1, noParent]
        · simp [isMember]
      · intro other
        simp only [lookup_insert_eq, keeps.parent, List.mem_append, List.mem_singleton]
        by_cases isMember : other = member <;> simp [isMember]
  · next refused =>
      refine ⟨keeps.nodup, ?_, keeps.parent⟩
      intro other
      rw [keeps.mem_iff, List.mem_append, List.mem_singleton]
      constructor
      · rintro ⟨inSlot, rest⟩
        exact ⟨.inl inSlot, rest⟩
      · rintro ⟨inSlot | rfl, different, noParent⟩
        · exact ⟨inSlot, different, noParent⟩
        · -- it is in the index, so it must have been kept before
          have present : ¬ other ∉ state.1 := fun out => refused ⟨different, out⟩
          rw [absent] at present
          have kept : other ∈ state.2 := by
            by_contra notKept
            exact present ⟨notKept, noParent⟩
          exact (keeps.mem_iff other).mp kept

theorem keeps_foldl (head : Row) (slot : List Row) (before : Finmap fun _ : Row => Row) :
    Keeps head slot before (slot.foldl (keepMember head) (before, [])) := by
  induction slot using List.reverseRecOn with
  | nil => exact ⟨List.nodup_nil, by simp, by simp⟩
  | append_singleton slot member inductionHypothesis =>
      rw [List.foldl_append]
      exact keepMember_spec inductionHypothesis

/-- A slot none of whose members has a parent is kept as it is. -/
theorem foldl_keepMember_eq_self {head : Row} {slot : List Row}
    {before : Finmap fun _ : Row => Row} (nodup : slot.Nodup)
    (free : ∀ member ∈ slot, member ≠ head ∧ before.lookup member = none) :
    (slot.foldl (keepMember head) (before, [])).2 = slot := by
  induction slot using List.reverseRecOn with
  | nil => rfl
  | append_singleton slot member inductionHypothesis =>
      rw [List.nodup_append] at nodup
      have earlier := inductionHypothesis nodup.1 fun other inside =>
        free other (List.mem_append_left [member] inside)
      have keeps := keeps_foldl head slot before
      obtain ⟨different, noParent⟩ := free member (by simp)
      have notKept : member ∉ (slot.foldl (keepMember head) (before, [])).2 := by
        rw [earlier]
        intro inside
        exact nodup.2.2 member inside member (by simp) rfl
      have absent : member ∉ (slot.foldl (keepMember head) (before, [])).1 := by
        rw [← Finmap.lookup_eq_none, keeps.parent, if_neg notKept, noParent]
      rw [List.foldl_append, List.foldl_cons, List.foldl_nil, keepMember,
        if_pos ⟨different, absent⟩, earlier]

/-! ## All slots -/

/-- The tables after the heads walked so far. -/
structure Describes (wire : RowSetsWire Row) (heads : List Row) (rebuilt : Rebuilt Row) :
    Prop where
  parent : ∀ member, rebuilt.parent.lookup member = heads.find? (wire.names member)
  mem_iff : ∀ member head, member ∈ (rebuilt.members.lookup head).getD [] ↔
    rebuilt.parent.lookup member = some head
  nodup : ∀ head, ((rebuilt.members.lookup head).getD []).Nodup
  nonempty : ∀ head, rebuilt.members.lookup head ≠ some []

section

variable {wire : RowSetsWire Row} {heads : List Row} {head : Row} {rebuilt : Rebuilt Row}
  (describes : Describes wire heads rebuilt)

include describes

/-- Its parent is the first head that lists a row, and the last head walked is the last to. -/
theorem Describes.parent_rebuildHead (member : Row) :
    (wire.rebuildHead rebuilt head).parent.lookup member =
      (heads ++ [head]).find? (wire.names member) := by
  have keeps := keeps_foldl head (wire.slot head) rebuilt.parent
  rw [List.find?_append, ← describes.parent]
  refine (keeps.parent member).trans ?_
  cases found : rebuilt.parent.lookup member with
  | some other => simp [keeps.mem_iff, found]
  | none =>
      by_cases named : wire.names member head = true
      · have isMember : member ≠ head ∧ member ∈ wire.slot head := by
          simpa [RowSetsWire.names] using named
        simp [keeps.mem_iff, found, named, isMember]
      · have notMember : ¬ (member ≠ head ∧ member ∈ wire.slot head) := by
          simpa [RowSetsWire.names] using named
        rw [if_neg, Option.none_or, List.find?_singleton, if_neg named]
        intro inside
        obtain ⟨inSlot, different, _⟩ := (keeps.mem_iff member).mp inside
        exact notMember ⟨different, inSlot⟩

variable (new : head ∉ heads)

include new

theorem Describes.parent_ne_new (member : Row) : rebuilt.parent.lookup member ≠ some head := by
  rw [describes.parent]
  intro found
  exact new (List.mem_of_find?_eq_some found)

/-- No member of a new head is in the tables yet. -/
theorem Describes.lookup_new : rebuilt.members.lookup head = none := by
  cases found : rebuilt.members.lookup head with
  | none => rfl
  | some slot =>
      exfalso
      cases slot with
      | nil => exact describes.nonempty head found
      | cons member rest =>
          have isHead := (describes.mem_iff member head).mp (by simp [found])
          exact describes.parent_ne_new new member isHead

theorem Describes.slot_rebuildHead (other : Row) :
    ((wire.rebuildHead rebuilt head).members.lookup other).getD [] =
      if other = head then ((wire.slot head).foldl (keepMember head) (rebuilt.parent, [])).2
      else (rebuilt.members.lookup other).getD [] := by
  have noMembers := describes.lookup_new new
  rw [rebuildHead]
  dsimp only
  by_cases isHead : other = head
  · subst isHead
    split
    · next nothing => simp [noMembers, nothing]
    · simp
  · rw [if_neg isHead]
    split
    · rfl
    · rw [lookup_insert_eq, if_neg isHead]

theorem Describes.mem_rebuildHead_iff (member other : Row) :
    member ∈ ((wire.rebuildHead rebuilt head).members.lookup other).getD [] ↔
      (wire.rebuildHead rebuilt head).parent.lookup member = some other := by
  have keeps := keeps_foldl head (wire.slot head) rebuilt.parent
  rw [describes.slot_rebuildHead new]
  refine Iff.trans ?_ (Eq.congr_left (keeps.parent member)).symm
  by_cases isHead : other = head
  · subst isHead
    by_cases inside : member ∈ ((wire.slot other).foldl (keepMember other) (rebuilt.parent, [])).2
    · simp [inside]
    · simp [inside, describes.parent_ne_new new member]
  · rw [if_neg isHead, describes.mem_iff]
    by_cases inside : member ∈ ((wire.slot head).foldl (keepMember head) (rebuilt.parent, [])).2
    · have noParent := ((keeps.mem_iff member).mp inside).2.2
      simp [inside, noParent, Ne.symm isHead]
    · simp [inside]

theorem describes_rebuildHead :
    Describes wire (heads ++ [head]) (wire.rebuildHead rebuilt head) where
  parent := describes.parent_rebuildHead
  mem_iff := describes.mem_rebuildHead_iff new
  nodup := by
    intro other
    rw [describes.slot_rebuildHead new]
    split
    · exact (keeps_foldl head (wire.slot head) rebuilt.parent).nodup
    · exact describes.nodup other
  nonempty := by
    intro other
    rw [rebuildHead]
    dsimp only
    split
    · exact describes.nonempty other
    · next occupied =>
        rw [lookup_insert_eq]
        split
        · simpa using occupied
        · exact describes.nonempty other

end

theorem describes_rebuild (wire : RowSetsWire Row) {heads : List Row} (nodup : heads.Nodup) :
    Describes wire heads (wire.rebuild heads) := by
  induction heads using List.reverseRecOn with
  | nil => exact ⟨by simp [rebuild], by simp [rebuild], by simp [rebuild], by simp [rebuild]⟩
  | append_singleton heads head inductionHypothesis =>
      rw [List.nodup_append] at nodup
      rw [rebuild, List.foldl_append]
      apply describes_rebuildHead (inductionHypothesis nodup.1)
      intro inside
      exact nodup.2.2 head inside head (by simp) rfl

end RowSets

namespace RowSetsWire

open RowSets

variable {Row : Type u} [DecidableEq Row]

section Load

variable (wire : RowSetsWire Row) (order : IterationOrder Row)

theorem describes_load :
    Describes wire (order.keys wire.members.keys)
      ⟨(wire.load order).parent, (wire.load order).members⟩ :=
  describes_rebuild wire (order.nodup _)

theorem parentOf_load (member : Row) :
    (wire.load order).parentOf member = wire.firstHead order member :=
  (wire.describes_load order).parent member

/-- Whatever the file says, the two tables agree and no set is empty or lists a row twice. -/
theorem mem_membersOf_load {member head : Row} :
    (wire.load order).parentOf member = some head ↔ member ∈ (wire.load order).membersOf head :=
  ((wire.describes_load order).mem_iff member head).symm

theorem heldBy_load :
    (wire.load order).HeldBy = fun member head => wire.firstHead order member = some head := by
  funext member head
  rw [HeldBy, parentOf_load]

theorem wellFormed_load_iff :
    (wire.load order).WellFormed ↔
      Acyclic fun member head => wire.firstHead order member = some head := by
  rw [← heldBy_load]
  constructor
  · exact WellFormed.acyclic
  · intro acyclic
    have describes := wire.describes_load order
    exact ⟨wire.mem_membersOf_load order, describes.nodup, describes.nonempty, acyclic⟩

/-- What is read is a forest, and every listed row is drawn or has a shut row above it. -/
def LoadsForest : Prop :=
  (wire.load order).WellFormed ∧
    ∀ rows, ∀ path ∈ rows,
      path ∈ ((wire.load order).visibleRows rows).map Prod.fst ∨
        ∃ ancestor ∈ (wire.load order).collapsed,
          Relation.TransGen (wire.load order).HeldBy path ancestor

/-- Reading a file yields a forest exactly when no loop leads from each row to the first head
that lists it. -/
theorem loadsForest_iff :
    wire.LoadsForest order ↔
      Acyclic fun member head => wire.firstHead order member = some head := by
  rw [← wellFormed_load_iff]
  constructor
  · exact And.left
  · intro wellFormed
    exact ⟨wellFormed, fun rows path listed => wellFormed.drawn_or_shut_above listed⟩

variable {wire}

theorem firstHead_of_unique {member head : Row} (named : wire.names member head = true)
    (unique : ∀ other, wire.names member other = true → other = head) :
    wire.firstHead order member = some head := by
  have isHead : head ∈ order.keys wire.members.keys := by
    rw [order.mem_keys, Finmap.mem_keys, ← Finmap.lookup_isSome]
    cases found : wire.members.lookup head with
    | none => simp [names, slot, found] at named
    | some slot => rfl
  rw [firstHead]
  cases found : (order.keys wire.members.keys).find? (wire.names member) with
  | none => exact absurd named (List.find?_eq_none.mp found head isHead)
  | some other => rw [unique other (List.find?_some found)]

end Load

/-! ## A loop of two heads -/

/-- Two heads that name each other. -/
def mutualHeads : RowSetsWire Nat where
  members := Finmap.insert 2 [1] (Finmap.insert 1 [2] ∅)
  collapsed := ∅

theorem names_mutualHeads {member head : Nat} :
    mutualHeads.names member head = true ↔
      (member = 1 ∧ head = 2) ∨ (member = 2 ∧ head = 1) := by
  rw [names, slot, mutualHeads, lookup_insert_eq, lookup_insert_eq, Finmap.lookup_empty]
  by_cases isTwo : head = 2
  · subst isTwo
    simp +contextual
  · by_cases isOne : head = 1
    · subst isOne
      simp +contextual
    · simp [isTwo, isOne]

theorem firstHead_mutualHeads (order : IterationOrder Nat) :
    mutualHeads.firstHead order 1 = some 2 ∧ mutualHeads.firstHead order 2 = some 1 := by
  constructor
  · apply firstHead_of_unique order (names_mutualHeads.mpr (.inl ⟨rfl, rfl⟩))
    intro other named
    rcases names_mutualHeads.mp named with ⟨_, isHead⟩ | ⟨impossible, _⟩
    · exact isHead
    · cases impossible
  · apply firstHead_of_unique order (names_mutualHeads.mpr (.inr ⟨rfl, rfl⟩))
    intro other named
    rcases names_mutualHeads.mp named with ⟨impossible, _⟩ | ⟨_, isHead⟩
    · cases impossible
    · exact isHead

/-- Both rows are gone from the screen, with nothing shut. -/
theorem not_loadsForest_mutualHeads :
    ¬ mutualHeads.LoadsForest default ∧ (mutualHeads.load default).visibleRows [1, 2] = [] ∧
      (mutualHeads.load default).collapsed = ∅ := by
  obtain ⟨isSecond, isFirst⟩ := firstHead_mutualHeads default
  rw [← parentOf_load] at isSecond isFirst
  refine ⟨?_, ?_, ?_⟩
  · rintro ⟨wellFormed, _⟩
    exact wellFormed.acyclic 1 (.head isSecond (.single isFirst))
  · have firstAbove : (mutualHeads.load default).drawnAncestorExists 1 [1, 2].toFinset = true :=
      ancestorMeets_of_head isSecond (by simp)
    have secondAbove : (mutualHeads.load default).drawnAncestorExists 2 [1, 2].toFinset = true :=
      ancestorMeets_of_head isFirst (by simp)
    rw [visibleRows, List.foldl_cons, List.foldl_cons, List.foldl_nil, visit, if_pos secondAbove,
      visit, if_pos firstAbove]
  · exact Finset.filter_empty _

end RowSetsWire

namespace RowSets

open RowSetsWire

variable {Row : Type u} [DecidableEq Row]

/-! ## Saving and loading -/

/-- The flag of a row that heads nothing is not seen. -/
theorem pushPending_congr {first second : RowSets Row}
    (sameMembers : first.membersOf = second.membersOf)
    (sameFlags : ∀ head, first.membersOf head ≠ [] →
      (head ∈ first.collapsed ↔ head ∈ second.collapsed))
    (drawn : Drawn Row) (pending : List (Row × Nat)) :
    first.pushPending drawn pending = second.pushPending drawn pending := by
  induction drawn, pending using pushPending.induct first with
  | case1 drawn => rw [pushPending, pushPending]
  | case2 drawn path depth rest isSeen inductionHypothesis =>
      rw [pushPending, if_pos isSeen, inductionHypothesis, pushPending.eq_def second drawn (_ :: _)]
      simp only [if_pos isSeen]
  | case3 drawn path depth rest unseen isShut inductionHypothesis =>
      rw [pushPending, if_neg unseen, if_pos isShut, inductionHypothesis,
        pushPending.eq_def second drawn]
      by_cases isHead : first.membersOf path = []
      · simp [unseen, ← sameMembers, isHead]
      · simp [unseen, (sameFlags path isHead).mp isShut]
  | case4 drawn path depth rest unseen isOpen inductionHypothesis =>
      rw [pushPending, if_neg unseen, if_neg isOpen, inductionHypothesis,
        pushPending.eq_def second drawn]
      by_cases isHead : first.membersOf path = []
      · simp [unseen, ← sameMembers, isHead]
      · have alsoOpen : path ∉ second.collapsed := fun isShut =>
          isOpen ((sameFlags path isHead).mpr isShut)
        simp [unseen, alsoOpen, sameMembers]

theorem visibleRows_congr {first second : RowSets Row}
    (sameMembers : first.members = second.members) (sameParent : first.parent = second.parent)
    (sameFlags : ∀ head, first.membersOf head ≠ [] →
      (head ∈ first.collapsed ↔ head ∈ second.collapsed)) (order : List Row) :
    first.visibleRows order = second.visibleRows order := by
  have membersOf_eq : first.membersOf = second.membersOf := by
    funext head
    rw [membersOf, membersOf, sameMembers]
  have walk_eq : ∀ test remaining current,
      first.ancestorWalkMeets test remaining current =
        second.ancestorWalkMeets test remaining current := by
    intro test remaining
    induction remaining with
    | zero =>
        intro current
        cases current <;> rw [ancestorWalkMeets, ancestorWalkMeets]
    | succ remaining inductionHypothesis =>
        intro current
        cases current with
        | none => rw [ancestorWalkMeets, ancestorWalkMeets]
        | some head =>
            rw [ancestorWalkMeets, ancestorWalkMeets, inductionHypothesis, parentOf, sameParent,
              parentOf]
  have visit_eq : first.visit = second.visit := by
    funext present drawn path
    rw [visit, visit, pushVisible, pushVisible, pushPending_congr membersOf_eq sameFlags,
      drawnAncestorExists, drawnAncestorExists, ancestorMeets, ancestorMeets, walk_eq, parentOf,
      parentOf, sameParent]
  rw [visibleRows, visibleRows, visit_eq]

theorem WellFormed.names_toWire_iff {sets : RowSets Row} (wellFormed : sets.WellFormed)
    {member head : Row} :
    sets.toWire.names member head = true ↔ sets.parentOf member = some head := by
  rw [wellFormed.parent_iff, RowSetsWire.names, Bool.and_eq_true, decide_eq_true_eq,
    decide_eq_true_eq]
  constructor
  · exact And.right
  · intro inside
    refine ⟨?_, inside⟩
    rintro rfl
    exact wellFormed.not_mem_membersOf_self member inside

theorem WellFormed.firstHead_toWire {sets : RowSets Row} (wellFormed : sets.WellFormed)
    (order : IterationOrder Row) (member : Row) :
    sets.toWire.firstHead order member = sets.parentOf member := by
  cases held : sets.parentOf member with
  | none =>
      rw [firstHead, List.find?_eq_none]
      intro head _ named
      rw [wellFormed.names_toWire_iff.mp named] at held
      cases held
  | some head =>
      apply firstHead_of_unique order (wellFormed.names_toWire_iff.mpr held)
      intro other named
      exact Option.some.inj ((wellFormed.names_toWire_iff.mp named).symm.trans held)

/-- Each slot of a forest is kept as it was saved, wherever in the order it comes. -/
theorem WellFormed.lookup_rebuild_toWire {sets : RowSets Row} (wellFormed : sets.WellFormed)
    {heads : List Row} (nodup : heads.Nodup) (head : Row) :
    (sets.toWire.rebuild heads).members.lookup head =
      if head ∈ heads then sets.members.lookup head else none := by
  induction heads using List.reverseRecOn with
  | nil => simp [rebuild]
  | append_singleton heads last inductionHypothesis =>
      rw [List.nodup_append] at nodup
      have new : last ∉ heads := fun inside => nodup.2.2 last inside last (by simp) rfl
      have kept : ((sets.toWire.slot last).foldl (keepMember last)
          ((sets.toWire.rebuild heads).parent, [])).2 = sets.membersOf last := by
        apply foldl_keepMember_eq_self (wellFormed.nodup last)
        intro member isMember
        have held := wellFormed.parent_iff.mpr isMember
        constructor
        · rintro rfl
          exact wellFormed.not_mem_membersOf_self member isMember
        · rw [(describes_rebuild sets.toWire nodup.1).parent, List.find?_eq_none]
          intro other isOther named
          have same := (wellFormed.names_toWire_iff.mp named).symm.trans held
          exact new (Option.some.inj same ▸ isOther)
      have isLast : (sets.toWire.rebuild (heads ++ [last])).members =
          if sets.membersOf last = [] then (sets.toWire.rebuild heads).members
          else (sets.toWire.rebuild heads).members.insert last (sets.membersOf last) := by
        rw [rebuild, List.foldl_append, List.foldl_cons, List.foldl_nil, ← rebuild, rebuildHead]
        dsimp only
        rw [kept]
      have earlier := inductionHypothesis nodup.1
      rw [isLast]
      by_cases isHead : head = last
      · subst isHead
        rw [if_neg new] at earlier
        rw [if_pos (List.mem_append_right heads List.mem_cons_self), wellFormed.lookup_members]
        split
        · exact earlier
        · rw [Finmap.lookup_insert]
      · have otherHead : head ∈ heads ++ [last] ↔ head ∈ heads := by simp [isHead]
        simp only [otherHead]
        rw [← earlier]
        split
        · rfl
        · rw [lookup_insert_eq, if_neg isHead]

/-- Saving and loading changes nothing that is seen. -/
theorem load_toWire (mutations : List (Mutation Row)) (order : IterationOrder Row) :
    let sets := reached mutations
    let loaded := sets.toWire.load order
    loaded.members = sets.members ∧ loaded.parent = sets.parent ∧
      ∀ rows, loaded.visibleRows rows = sets.visibleRows rows := by
  intro sets loaded
  have wellFormed : sets.WellFormed := wellFormed_reached mutations
  have sameMembers : loaded.members = sets.members := by
    apply Finmap.ext_lookup
    intro head
    refine (wellFormed.lookup_rebuild_toWire (order.nodup _) head).trans ?_
    split
    · rfl
    · next absent =>
        rw [order.mem_keys, Finmap.mem_keys] at absent
        exact (Finmap.lookup_eq_none.mpr absent).symm
  have sameParent : loaded.parent = sets.parent := by
    apply Finmap.ext_lookup
    intro member
    exact (sets.toWire.parentOf_load order member).trans (wellFormed.firstHead_toWire order member)
  refine ⟨sameMembers, sameParent, ?_⟩
  apply visibleRows_congr sameMembers sameParent
  intro head isHead
  have inMembers : head ∈ loaded.members := by
    by_contra absent
    exact isHead (by rw [membersOf, Finmap.lookup_eq_none.mpr absent, Option.getD_none])
  refine Finset.mem_filter.trans ?_
  exact and_iff_left inMembers

end RowSets

end Yggterm
