import Mathlib.Data.List.Perm.Basic
import Yggterm.Library.OrderedForest
import Yggterm.RowSets.Model

/-!
# The representation invariant of row sets

`members` and `parent` store one relation twice.  Each mutator is first described
by what it does to the two lookups `membersOf` and `parentOf`; that it keeps the
two in step, and keeps the relation acyclic, then follows from the description.
-/

namespace Yggterm.RowSets

open HashMaps Forests

universe u

variable {Row : Type u} [DecidableEq Row]

/-- The two tables describe one forest without empty sets. -/
structure WellFormed (sets : RowSets Row) : Prop where
  parent_iff : ∀ {member head}, sets.parentOf member = some head ↔ member ∈ sets.membersOf head
  nodup : ∀ head, (sets.membersOf head).Nodup
  nonempty : ∀ head, sets.members.lookup head ≠ some []
  acyclic : Acyclic sets.HeldBy

theorem wellFormed_empty : (empty : RowSets Row).WellFormed where
  parent_iff := by simp [empty, parentOf, membersOf]
  nodup head := by simp [empty, membersOf]
  nonempty head := by simp [empty]
  acyclic node cycle := by
    rcases Relation.TransGen.head'_iff.mp cycle with ⟨head, held, _⟩
    simp [HeldBy, empty, parentOf] at held

namespace WellFormed

variable {sets : RowSets Row}

/-- The member table is determined by the lists that are read out of it. -/
theorem lookup_members (wellFormed : sets.WellFormed) (head : Row) :
    sets.members.lookup head =
      if sets.membersOf head = [] then none else some (sets.membersOf head) := by
  have occupied := wellFormed.nonempty head
  cases found : sets.members.lookup head with
  | none => simp [membersOf, found]
  | some slot =>
      rw [found] at occupied
      have slotOccupied : slot ≠ [] := fun isEmpty => occupied (by rw [isEmpty])
      simp [membersOf, found, slotOccupied]

theorem mem_members_iff (wellFormed : sets.WellFormed) {head : Row} :
    head ∈ sets.members ↔ sets.membersOf head ≠ [] := by
  rw [← Finmap.lookup_isSome, wellFormed.lookup_members]
  split <;> simp_all

/-- A row is a member of at most one set. -/
theorem head_unique (wellFormed : sets.WellFormed) {member first second : Row}
    (inFirst : member ∈ sets.membersOf first) (inSecond : member ∈ sets.membersOf second) :
    first = second := by
  have parentFirst := wellFormed.parent_iff.mpr inFirst
  rw [wellFormed.parent_iff.mpr inSecond] at parentFirst
  exact (Option.some.inj parentFirst).symm

theorem not_mem_membersOf_self (wellFormed : sets.WellFormed) (head : Row) :
    head ∉ sets.membersOf head := fun member =>
  wellFormed.acyclic head (.single (wellFormed.parent_iff.mpr member))

theorem heldBy_iff (wellFormed : sets.WellFormed) {member head : Row} :
    sets.HeldBy member head ↔ member ∈ sets.membersOf head :=
  wellFormed.parent_iff

theorem mem_parent_keys {member head : Row} (held : sets.HeldBy member head) :
    member ∈ sets.parent.keys :=
  Finmap.mem_keys.mpr (Finmap.mem_iff.mpr ⟨head, held⟩)

theorem occurrences_le_one (wellFormed : sets.WellFormed) (member : Row) :
    sets.occurrences member ≤ 1 := by
  unfold occurrences
  by_cases held : ∃ head ∈ sets.members.keys, member ∈ sets.membersOf head
  · rcases held with ⟨head, isHead, inside⟩
    rw [Finset.sum_eq_single_of_mem head isHead]
    · exact List.nodup_iff_count_le_one.mp (wellFormed.nodup head) member
    · intro other _ different
      refine List.count_eq_zero.mpr fun inOther => ?_
      exact different (wellFormed.head_unique inOther inside)
  · rw [Finset.sum_eq_zero]
    · omega
    · intro head isHead
      exact List.count_eq_zero.mpr fun inside => held ⟨head, isHead, inside⟩

/-- A well-formed arrangement read as a forest. -/
def forest (wellFormed : sets.WellFormed) : OrderedForest Row where
  children := sets.membersOf
  oneParent := wellFormed.head_unique
  wellFounded := by
    have held := wellFormed.acyclic.wellFounded sets.parent.keys
      fun _ _ held => mem_parent_keys held
    exact Subrelation.wf (fun member => wellFormed.parent_iff.mpr member) held

@[simp]
theorem forest_children (wellFormed : sets.WellFormed) :
    wellFormed.forest.children = sets.membersOf := rfl

end WellFormed

/-- Substituting for a row changes nothing where the row does not occur. -/
theorem flatMap_of_not_mem (rows promoted : List Row) {head : Row} (absent : head ∉ rows) :
    rows.flatMap (fun child => if child = head then promoted else [child]) = rows := by
  have collapse : rows.flatMap (fun child => if child = head then promoted else [child]) =
      rows.flatMap fun child => [child] := by
    refine List.flatMap_congr fun child inside => ?_
    have different : child ≠ head := by
      rintro rfl
      exact absent inside
    rw [if_neg different]
  rw [collapse, List.flatMap_singleton']

theorem mem_substituted_iff (rows promoted : List Row) (head path : Row) :
    path ∈ rows.flatMap (fun child => if child = head then promoted else [child]) ↔
      (head ∈ rows ∧ path ∈ promoted) ∨ (path ∈ rows ∧ path ≠ head) := by
  rw [List.mem_flatMap]
  constructor
  · rintro ⟨child, inside, piece⟩
    split at piece
    · next isHead => exact .inl ⟨isHead ▸ inside, piece⟩
    · next different =>
        obtain rfl := List.mem_singleton.mp piece
        exact .inr ⟨inside, different⟩
  · rintro (⟨present, promotedPath⟩ | ⟨inside, different⟩)
    · exact ⟨head, present, by simpa using promotedPath⟩
    · exact ⟨path, inside, by simp [different]⟩

/-! ## Detaching -/

theorem parentOf_detach (sets : RowSets Row) (member path : Row) :
    (sets.detach member).parentOf path = if path = member then none else sets.parentOf path := by
  unfold detach
  split
  · next found =>
      by_cases isMember : path = member
      · rw [if_pos isMember, isMember, parentOf, found]
      · rw [if_neg isMember]
  · split
    · exact lookup_erase_eq _ _ _
    · dsimp only
      split <;> exact lookup_erase_eq _ _ _

theorem membersOf_detach {sets : RowSets Row} (wellFormed : sets.WellFormed)
    (member head : Row) :
    (sets.detach member).membersOf head =
      (sets.membersOf head).filter fun path => path ≠ member := by
  have unaffected : ∀ other, sets.parentOf member ≠ some other →
      (sets.membersOf other).filter (fun path => path ≠ member) = sets.membersOf other := by
    intro other elsewhere
    refine List.filter_eq_self.mpr fun path inside => ?_
    have different : path ≠ member := by
      rintro rfl
      exact elsewhere (wellFormed.parent_iff.mpr inside)
    simpa using different
  unfold detach
  split
  · next found =>
      rw [unaffected head]
      rw [parentOf, found]
      simp
  · next holder found =>
      have holderSlot : member ∈ sets.membersOf holder := wellFormed.parent_iff.mp found
      split
      · next absent => simp [membersOf, absent] at holderSlot
      · next slot present =>
          have slotEquality : sets.membersOf holder = slot := by simp [membersOf, present]
          dsimp only
          by_cases isHolder : head = holder
          · subst isHolder
            rw [slotEquality]
            split
            · next isEmpty => rw [isEmpty, membersOf, Finmap.lookup_erase, Option.getD_none]
            · rw [membersOf, Finmap.lookup_insert, Option.getD_some]
          · have elsewhere : sets.parentOf member ≠ some head := by
              rw [parentOf, found]
              exact fun equality => isHolder (Option.some.inj equality).symm
            rw [unaffected head elsewhere]
            split
            · rw [membersOf, lookup_erase_eq, if_neg isHolder, membersOf]
            · rw [membersOf, lookup_insert_eq, if_neg isHolder, membersOf]

theorem nonempty_detach {sets : RowSets Row} (wellFormed : sets.WellFormed)
    (member head : Row) : (sets.detach member).members.lookup head ≠ some [] := by
  have occupied := wellFormed.nonempty head
  unfold detach
  split
  · exact occupied
  · split
    · exact occupied
    · dsimp only
      split
      · rw [lookup_erase_eq]
        split
        · simp
        · exact occupied
      · next slotOccupied =>
          rw [lookup_insert_eq]
          split
          · simpa using slotOccupied
          · exact occupied

theorem WellFormed.detach {sets : RowSets Row} (wellFormed : sets.WellFormed) (member : Row) :
    (sets.detach member).WellFormed where
  parent_iff := by
    intro path head
    rw [parentOf_detach, membersOf_detach wellFormed, List.mem_filter,
      ← wellFormed.parent_iff]
    by_cases isMember : path = member <;> simp [isMember]
  nodup head := by
    rw [membersOf_detach wellFormed]
    exact (wellFormed.nodup head).filter _
  nonempty := nonempty_detach wellFormed member
  acyclic := by
    refine wellFormed.acyclic.of_subset_transGen fun path head held => .single ?_
    rw [HeldBy, parentOf_detach] at held
    split at held
    · simp at held
    · exact held

/-! ## Inserting -/

/-- The guarded walk misses nothing: every row the walk may still step past
lies in a set no larger than the guard. -/
theorem ancestorWalk_eq_none {sets : RowSets Row} (acyclic : Acyclic sets.HeldBy)
    {target : Row} (remaining : Nat) (ahead : Finset Row) (path : Row)
    (bounded : ahead.card ≤ remaining)
    (contains : ∀ lower upper, Relation.ReflTransGen sets.HeldBy path lower →
      sets.HeldBy lower upper → lower ∈ ahead)
    (missed : sets.ancestorWalk target remaining (some path) = none) :
    ¬ Relation.ReflTransGen sets.HeldBy path target := by
  induction remaining generalizing ahead path with
  | zero =>
      rw [ancestorWalk] at missed
      intro reaches
      rcases Relation.ReflTransGen.cases_head reaches with rfl | ⟨upper, held, _⟩
      · simp at missed
      · have member := contains path upper .refl held
        rw [Finset.card_eq_zero.mp (Nat.le_zero.mp bounded)] at member
        simp at member
  | succ remaining inductionHypothesis =>
      rw [ancestorWalk] at missed
      intro reaches
      rcases Relation.ReflTransGen.cases_head reaches with rfl | ⟨upper, held, onward⟩
      · simp at missed
      · have different : path ≠ target := by
          rintro rfl
          simp at missed
        rw [if_neg different, held] at missed
        have member := contains path upper .refl held
        refine inductionHypothesis (ahead.erase path) upper ?_ ?_ missed onward
        · rw [Finset.card_erase_of_mem member]
          omega
        · intro lower highest below above
          refine Finset.mem_erase.mpr ⟨?_, contains lower highest (below.head held) above⟩
          rintro rfl
          exact acyclic lower (Relation.TransGen.head' held below)

theorem firstAncestorAtOrBelow_eq_none {sets : RowSets Row} (acyclic : Acyclic sets.HeldBy)
    {source target : Row} (missed : sets.firstAncestorAtOrBelow source target = none) :
    ¬ Relation.ReflTransGen sets.HeldBy source target :=
  ancestorWalk_eq_none acyclic _ sets.parent.keys source (Nat.le_succ _)
    (fun _ _ _ held => WellFormed.mem_parent_keys held) missed

/-- What an accepted insertion does to the two lookups. -/
structure Inserts (before after : RowSets Row) (head member : Row) : Prop where
  different : head ≠ member
  separate : ¬ Relation.ReflTransGen before.HeldBy head member
  members : ∃ position ≤ ((before.detach member).membersOf head).length,
    after.members = (before.detach member).members.insert head
      (((before.detach member).membersOf head).insertIdx position member)
  parent : after.parent = (before.detach member).parent.insert member head

/-- An insertion either refuses and leaves the value alone, or inserts. -/
theorem insertMemberWithChildren_cases {sets : RowSets Row} (acyclic : Acyclic sets.HeldBy)
    (head member : Row) (index : Option Nat) (allowNest : Bool) :
    ((sets.insertMemberWithChildren head member index allowNest).1 ≠ .ok () ∧
        (sets.insertMemberWithChildren head member index allowNest).2 = sets) ∨
      Inserts sets (sets.insertMemberWithChildren head member index allowNest).2 head member := by
  unfold insertMemberWithChildren
  split
  · exact .inl ⟨nofun, rfl⟩
  · next different =>
      split
      · exact .inl ⟨nofun, rfl⟩
      · next missed =>
          split
          · exact .inl ⟨nofun, rfl⟩
          · refine .inr ⟨different, firstAncestorAtOrBelow_eq_none acyclic missed,
              ⟨_, ?_, rfl⟩, rfl⟩
            cases index with
            | none => exact le_rfl
            | some index => exact Nat.min_le_right _ _

theorem Inserts.parentOf_eq {before after : RowSets Row} {head member : Row}
    (inserts : Inserts before after head member) (path : Row) :
    after.parentOf path = if path = member then some head else before.parentOf path := by
  rw [parentOf, inserts.parent, lookup_insert_eq]
  split
  · rfl
  · next different =>
      have detached := parentOf_detach before member path
      rw [if_neg different] at detached
      exact detached

theorem Inserts.membersOf_perm {before after : RowSets Row} {head member : Row}
    (inserts : Inserts before after head member) (other : Row) :
    (after.membersOf other).Perm
      (if other = head then member :: (before.detach member).membersOf head
        else (before.detach member).membersOf other) := by
  rcases inserts.members with ⟨position, inside, equality⟩
  rw [membersOf, equality, lookup_insert_eq]
  split
  · exact List.perm_insertIdx member _ inside
  · exact List.Perm.refl _

theorem Inserts.wellFormed {before after : RowSets Row} {head member : Row}
    (wellFormed : before.WellFormed) (inserts : Inserts before after head member) :
    after.WellFormed where
  parent_iff := by
    intro path holder
    rw [(inserts.membersOf_perm holder).mem_iff, inserts.parentOf_eq]
    by_cases isMember : path = member
    · subst isMember
      by_cases isHead : holder = head
      · simp [isHead]
      · simp [isHead, Ne.symm isHead, membersOf_detach wellFormed]
    · by_cases isHead : holder = head <;>
        simp [isHead, isMember, membersOf_detach wellFormed, wellFormed.parent_iff]
  nodup holder := by
    refine (inserts.membersOf_perm holder).nodup_iff.mpr ?_
    split
    · refine List.nodup_cons.mpr ⟨?_, (wellFormed.detach member).nodup head⟩
      simp [membersOf_detach wellFormed]
    · exact (wellFormed.detach member).nodup holder
  nonempty holder := by
    rcases inserts.members with ⟨position, inside, equality⟩
    rw [equality, lookup_insert_eq]
    split
    · intro isEmpty
      have length := congrArg List.length (Option.some.inj isEmpty)
      rw [List.length_insertIdx_of_le_length inside] at length
      simp at length
    · exact (wellFormed.detach member).nonempty holder
  acyclic := by
    refine wellFormed.acyclic.insert_edge ?_ inserts.separate
    intro path holder held
    rw [HeldBy, inserts.parentOf_eq] at held
    split at held
    · next isMember => exact .inr ⟨isMember, (Option.some.inj held).symm⟩
    · exact .inl held

theorem WellFormed.insertMemberWithChildren {sets : RowSets Row} (wellFormed : sets.WellFormed)
    (head member : Row) (index : Option Nat) (allowNest : Bool) :
    (sets.insertMemberWithChildren head member index allowNest).2.WellFormed := by
  rcases insertMemberWithChildren_cases wellFormed.acyclic head member index allowNest with
    ⟨_, unchanged⟩ | inserts
  · rw [unchanged]
    exact wellFormed
  · exact inserts.wellFormed wellFormed

/-! ## Dissolving -/

omit [DecidableEq Row] in
theorem insertIdx_length_append (front back : List Row) (member : Row) :
    (front ++ back).insertIdx front.length member = front ++ member :: back := by
  induction front with
  | nil => simp
  | cons first rest inductionHypothesis =>
      rw [List.cons_append, List.length_cons, List.insertIdx_succ_cons, inductionHypothesis,
        List.cons_append]

omit [DecidableEq Row] in
/-- Promoted members go in one by one, each right after the one before it. -/
theorem foldl_insertIdx_promoted (front back promoted : List Row) (position offset : Nat)
    (aligned : position + offset = front.length) :
    (promoted.zipIdx offset).foldl
      (fun slot entry => slot.insertIdx (min (position + entry.2) slot.length) entry.1)
      (front ++ back) = front ++ promoted ++ back := by
  induction promoted generalizing front offset with
  | nil => simp
  | cons member rest inductionHypothesis =>
      have inserted : (front ++ back).insertIdx
          (min (position + offset) (front ++ back).length) member =
            (front ++ [member]) ++ back := by
        rw [aligned, List.length_append, Nat.min_eq_left (Nat.le_add_right _ _),
          insertIdx_length_append, List.append_assoc, List.singleton_append]
      rw [List.zipIdx_cons, List.foldl_cons, inserted,
        inductionHypothesis (front ++ [member]) (offset + 1) (by simp; omega)]
      simp

theorem spliceSlot_append (front back promoted : List Row) (head : Row)
    (absent : head ∉ front) :
    spliceSlot (front ++ head :: back) head promoted = front ++ promoted ++ back := by
  have position : (front ++ head :: back).findIdx? (fun path => decide (path = head)) =
      some front.length := by
    rw [List.findIdx?_append, List.findIdx?_eq_none_iff.mpr, List.findIdx?_cons]
    · simp
    · intro path inside
      have different : path ≠ head := fun equality => absent (equality ▸ inside)
      simpa using different
  have clamped : min front.length ((front ++ head :: back).length - 1) = front.length := by
    simp
  unfold spliceSlot
  dsimp only
  rw [position, Option.getD_some, clamped, List.eraseIdx_append_of_length_le le_rfl]
  simpa using foldl_insertIdx_promoted front back promoted front.length 0 rfl

/-- On a slot that lists `head` once, the index arithmetic is a substitution. -/
theorem spliceSlot_eq_flatMap (slot promoted : List Row) (head : Row)
    (nodup : slot.Nodup) (present : head ∈ slot) :
    spliceSlot slot head promoted =
      slot.flatMap fun child => if child = head then promoted else [child] := by
  rcases List.append_of_mem present with ⟨front, back, rfl⟩
  rw [List.nodup_append, List.nodup_cons] at nodup
  have absentFront : head ∉ front := fun inside =>
    nodup.2.2 head inside head (by simp) rfl
  rw [spliceSlot_append front back promoted head absentFront, List.flatMap_append,
    List.flatMap_cons, if_pos rfl, flatMap_of_not_mem front promoted absentFront,
    flatMap_of_not_mem back promoted nodup.2.1.1, List.append_assoc]

theorem parentOf_dissolve {sets : RowSets Row} (wellFormed : sets.WellFormed)
    (head path : Row) :
    (sets.dissolve head).2.parentOf path =
      if path = head then none
      else if path ∈ sets.membersOf head then sets.parentOf head else sets.parentOf path := by
  have loose : ((sets.membersOf head).foldl (fun parent member => parent.erase member)
      (sets.parent.erase head)).lookup path =
        if path = head ∨ path ∈ sets.membersOf head then none else sets.parentOf path := by
    rw [lookup_foldl_erase, lookup_erase_eq, parentOf]
    by_cases isHead : path = head <;> simp [isHead]
  have headAbsent := wellFormed.not_mem_membersOf_self head
  unfold dissolve
  dsimp only
  split
  · next orphan =>
      have noHolder : sets.parentOf head = none := orphan
      rw [noHolder, parentOf, loose]
      by_cases isHead : path = head <;> by_cases promoted : path ∈ sets.membersOf head <;>
        simp [isHead, promoted]
  · next grandparent held =>
      have inSlot : head ∈ sets.membersOf grandparent := wellFormed.parent_iff.mp held
      have different : grandparent ≠ head := by
        rintro rfl
        exact headAbsent inSlot
      rw [lookup_erase_eq, if_neg different, wellFormed.lookup_members,
        if_neg (List.ne_nil_of_mem inSlot)]
      dsimp only
      have relinked : (((sets.membersOf head).foldl
          (fun parent member => parent.insert member grandparent)
          ((sets.membersOf head).foldl (fun parent member => parent.erase member)
            (sets.parent.erase head))).lookup path) =
          if path = head then none
          else if path ∈ sets.membersOf head then some grandparent else sets.parentOf path := by
        rw [lookup_foldl_insert, loose]
        by_cases isHead : path = head
        · subst isHead
          simp [headAbsent]
        · by_cases promoted : path ∈ sets.membersOf head <;> simp [isHead, promoted]
      have holder : sets.parentOf head = some grandparent := held
      rw [holder]
      split <;> exact relinked

theorem membersOf_dissolve {sets : RowSets Row} (wellFormed : sets.WellFormed)
    (head other : Row) :
    (sets.dissolve head).2.membersOf other =
      if other = head then []
      else (sets.membersOf other).flatMap fun child =>
        if child = head then sets.membersOf head else [child] := by
  have untouched : ∀ holder, sets.parentOf head ≠ some holder →
      (sets.membersOf holder).flatMap (fun child =>
        if child = head then sets.membersOf head else [child]) = sets.membersOf holder := by
    intro holder elsewhere
    exact flatMap_of_not_mem _ _ fun inside => elsewhere (wellFormed.parent_iff.mpr inside)
  have erased : ((sets.members.erase head).lookup other).getD [] =
      if other = head then [] else sets.membersOf other := by
    rw [lookup_erase_eq]
    by_cases isHead : other = head <;> simp [isHead, membersOf]
  unfold dissolve
  dsimp only
  split
  · next orphan =>
      have noHolder : sets.parentOf head = none := orphan
      rw [untouched other (by simp [noHolder]), membersOf, erased]
  · next grandparent held =>
      have holder : sets.parentOf head = some grandparent := held
      have inSlot : head ∈ sets.membersOf grandparent := wellFormed.parent_iff.mp held
      have different : grandparent ≠ head := by
        rintro rfl
        exact wellFormed.not_mem_membersOf_self grandparent inSlot
      rw [lookup_erase_eq, if_neg different, wellFormed.lookup_members,
        if_neg (List.ne_nil_of_mem inSlot)]
      dsimp only
      rw [spliceSlot_eq_flatMap _ _ _ (wellFormed.nodup grandparent) inSlot]
      by_cases isGrandparent : other = grandparent
      · subst isGrandparent
        rw [if_neg different]
        split
        · next isEmpty => rw [isEmpty, membersOf, Finmap.lookup_erase, Option.getD_none]
        · rw [membersOf, Finmap.lookup_insert, Option.getD_some]
      · rw [untouched other (by simp [holder, Ne.symm isGrandparent])]
        split
        · rw [membersOf, lookup_erase_eq, if_neg isGrandparent, erased]
        · rw [membersOf, lookup_insert_eq, if_neg isGrandparent, erased]

theorem nonempty_dissolve {sets : RowSets Row} (wellFormed : sets.WellFormed)
    (head other : Row) : (sets.dissolve head).2.members.lookup other ≠ some [] := by
  have erased : (sets.members.erase head).lookup other ≠ some [] := by
    rw [lookup_erase_eq]
    split
    · simp
    · exact wellFormed.nonempty other
  unfold dissolve
  dsimp only
  split
  · exact erased
  · split
    · exact erased
    · split
      · rw [lookup_erase_eq]
        split
        · simp
        · exact erased
      · next occupied =>
          rw [lookup_insert_eq]
          split
          · simpa using occupied
          · exact erased

theorem WellFormed.dissolve {sets : RowSets Row} (wellFormed : sets.WellFormed) (head : Row) :
    (sets.dissolve head).2.WellFormed where
  parent_iff := by
    intro path holder
    have headAbsent := wellFormed.not_mem_membersOf_self head
    rw [parentOf_dissolve wellFormed, membersOf_dissolve wellFormed]
    by_cases holderIsHead : holder = head
    · -- the dissolved head holds nothing, and nothing it held moves to itself
      subst holderIsHead
      have notOwnParent : sets.parentOf holder ≠ some holder := fun held =>
        headAbsent (wellFormed.parent_iff.mp held)
      by_cases isHead : path = holder <;> by_cases promoted : path ∈ sets.membersOf holder <;>
        simp [isHead, promoted, notOwnParent, wellFormed.parent_iff]
    · rw [if_neg holderIsHead, mem_substituted_iff]
      by_cases isHead : path = head
      · subst isHead
        simp [headAbsent]
      · by_cases promoted : path ∈ sets.membersOf head
        · have notHere : path ∉ sets.membersOf holder := fun inside =>
            holderIsHead (wellFormed.head_unique inside promoted)
          simp [isHead, promoted, notHere, wellFormed.parent_iff]
        · simp [isHead, promoted, wellFormed.parent_iff]
  nodup holder := by
    rw [membersOf_dissolve wellFormed]
    split
    · exact List.nodup_nil
    · next holderNotHead =>
        refine List.nodup_flatMap.mpr ⟨?_, ?_⟩
        · intro child _
          split
          · exact wellFormed.nodup head
          · exact List.nodup_singleton child
        · -- a promoted member has another parent than its new siblings
          have apart : ∀ child ∈ sets.membersOf holder, child ∉ sets.membersOf head :=
            fun child inside promoted =>
              holderNotHead (wellFormed.head_unique inside promoted)
          refine (wellFormed.nodup holder).pairwise_of_forall_ne ?_
          intro first inFirst second inSecond different
          by_cases firstHead : first = head <;> by_cases secondHead : second = head
          · exact absurd (firstHead.trans secondHead.symm) different
          · simpa [Function.onFun, firstHead, secondHead] using apart second inSecond
          · simpa [Function.onFun, firstHead, secondHead] using apart first inFirst
          · simpa [Function.onFun, firstHead, secondHead] using different.symm
  nonempty := nonempty_dissolve wellFormed head
  acyclic := by
    refine wellFormed.acyclic.of_subset_transGen fun path holder held => ?_
    rw [HeldBy, parentOf_dissolve wellFormed] at held
    split at held
    · simp at held
    · split at held
      · next promoted =>
          have below : sets.HeldBy path head := wellFormed.parent_iff.mpr promoted
          exact .head below (.single held)
      · exact .single held

/-! ## Whole runs -/

theorem WellFormed.congr {before after : RowSets Row} (wellFormed : before.WellFormed)
    (sameParent : after.parent = before.parent) (sameMembers : after.members = before.members) :
    after.WellFormed := by
  have parentOfEq : after.parentOf = before.parentOf := by
    funext path
    rw [parentOf, parentOf, sameParent]
  have membersOfEq : after.membersOf = before.membersOf := by
    funext path
    rw [membersOf, membersOf, sameMembers]
  have heldEq : after.HeldBy = before.HeldBy := by
    funext member head
    rw [HeldBy, HeldBy, parentOfEq]
  exact ⟨by simpa [parentOfEq, membersOfEq] using @wellFormed.parent_iff,
    by simpa [membersOfEq] using wellFormed.nodup,
    by simpa [sameMembers] using wellFormed.nonempty,
    by simpa [heldEq] using wellFormed.acyclic⟩

theorem WellFormed.setCollapsed {sets : RowSets Row} (wellFormed : sets.WellFormed)
    (head : Row) (collapsed : Bool) : (sets.setCollapsed head collapsed).WellFormed := by
  cases collapsed <;> exact wellFormed.congr rfl rfl

theorem WellFormed.dissolveAll {sets : RowSets Row} (wellFormed : sets.WellFormed)
    (heads : List Row) : (sets.dissolveAll heads).WellFormed :=
  Runs.run_invariant (fun _ head holds => holds.dissolve head) wellFormed heads

theorem WellFormed.detachAll {sets : RowSets Row} (wellFormed : sets.WellFormed)
    (members : List Row) : (sets.detachAll members).WellFormed :=
  Runs.run_invariant (fun _ member holds => holds.detach member) wellFormed members

theorem WellFormed.retainLive {sets : RowSets Row} (wellFormed : sets.WellFormed)
    (iteration : Iteration Row) (live : Finset Row) :
    (sets.retainLive iteration live).2.WellFormed :=
  ((wellFormed.dissolveAll _).detachAll _).congr rfl rfl

theorem WellFormed.sortMembersByKey {Key : Type} [LinearOrder Key] {sets : RowSets Row}
    (wellFormed : sets.WellFormed) (key : Row → Key) :
    (sets.sortMembersByKey key).WellFormed := by
  have reordered : ∀ head, ((sets.sortMembersByKey key).membersOf head).Perm
      (sets.membersOf head) := by
    intro head
    rw [membersOf, RowSets.sortMembersByKey, lookup_mapValues]
    cases found : sets.members.lookup head with
    | none => simp [membersOf, found]
    | some slot => simpa [membersOf, found] using List.mergeSort_perm slot _
  refine ⟨?_, ?_, ?_, wellFormed.acyclic⟩
  · intro member head
    rw [(reordered head).mem_iff]
    exact wellFormed.parent_iff
  · intro head
    exact (reordered head).nodup_iff.mpr (wellFormed.nodup head)
  · intro head
    rw [RowSets.sortMembersByKey, lookup_mapValues]
    intro isEmpty
    rcases Option.map_eq_some_iff.mp isEmpty with ⟨slot, found, sorted⟩
    have slotEmpty : slot = [] := by
      have permutation := List.mergeSort_perm slot fun first second => key first ≤ key second
      rw [sorted] at permutation
      exact permutation.nil_eq.symm
    exact wellFormed.nonempty head (slotEmpty ▸ found)

theorem WellFormed.apply {sets : RowSets Row} (wellFormed : sets.WellFormed)
    (mutation : Mutation Row) : (sets.apply mutation).WellFormed := by
  cases mutation with
  | insertMember head member index =>
      exact wellFormed.insertMemberWithChildren head member index false
  | insertMemberWithChildren head member index allowNest =>
      exact wellFormed.insertMemberWithChildren head member index allowNest
  | detach member => exact wellFormed.detach member
  | dissolve head => exact wellFormed.dissolve head
  | retainLive iteration live => exact wellFormed.retainLive iteration live
  | setCollapsed head collapsed => exact wellFormed.setCollapsed head collapsed
  | sortMembersByKey Key order key => exact wellFormed.sortMembersByKey key

theorem wellFormed_reached (mutations : List (Mutation Row)) :
    (reached mutations).WellFormed :=
  Runs.run_invariant (fun _ mutation holds => holds.apply mutation) wellFormed_empty mutations

/-- After any sequence of mutators the parent index says exactly what the member
lists say, a row occurs at most once over all of them, no list is empty and no
row is above itself. -/
theorem reached_invariants (mutations : List (Mutation Row)) :
    (∀ member head, (reached mutations).parentOf member = some head ↔
      member ∈ (reached mutations).membersOf head) ∧
    (∀ member, (reached mutations).occurrences member ≤ 1) ∧
    (∀ head slot, (reached mutations).members.lookup head = some slot → slot ≠ []) ∧
    (∀ row, ¬ Relation.TransGen (reached mutations).HeldBy row row) := by
  have wellFormed := wellFormed_reached mutations
  refine ⟨fun _ _ => wellFormed.parent_iff, wellFormed.occurrences_le_one, ?_,
    wellFormed.acyclic⟩
  rintro head slot found rfl
  exact wellFormed.nonempty head found

end Yggterm.RowSets
