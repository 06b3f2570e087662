import Mathlib.Algebra.BigOperators.Group.Finset.Basic
import Mathlib.Data.List.InsertIdx
import Mathlib.Logic.Relation
import Yggterm.Library.HashMaps
import Yggterm.Library.Runs
import Yggterm.Library.Text

/-!
# Row sets

The containment relation behind collapsible groups of live rows
(`yggterm-core/src/row_set.rs`).  A row is named by its path; nothing in the
module looks inside a path, so the model is over any type of rows with decidable
equality.  The two hash maps are `Finmap`s and the hash set is a `Finset`; where
the source iterates over one of them, the order is an argument.
-/

namespace Yggterm

open HashMaps

universe u

variable {Row : Type u}

/-- Why an arrangement was refused. -/
inductive RowSetRefusal (Row : Type u) where
  | selfParent
  | wouldCycle (through : Row)
  | wouldNestHead (member : Row) (descendantCount : Nat)
  deriving DecidableEq

/-- `members` lists what is drawn under each head, in order; `parent` is the
index from a member to the head that holds it; `collapsed` holds the shut heads. -/
structure RowSets (Row : Type u) where
  members : Finmap fun _ : Row => List Row
  parent : Finmap fun _ : Row => Row
  collapsed : Finset Row

namespace RowSets

/-- `RowSets::default()`. -/
def empty : RowSets Row where
  members := ∅
  parent := ∅
  collapsed := ∅

variable [DecidableEq Row]

def parentOf (sets : RowSets Row) (path : Row) : Option Row :=
  sets.parent.lookup path

def membersOf (sets : RowSets Row) (path : Row) : List Row :=
  (sets.members.lookup path).getD []

/-- The worklist of `descendant_count`.  The stack's top is the head of the
list, so members are pushed in reverse. -/
def countDescendants (sets : RowSets Row) (seen : Finset Row) (stack : List Row)
    (count : Nat) : Nat :=
  match stack with
  | [] => count
  | current :: rest =>
      if current ∈ seen then
        sets.countDescendants seen rest count
      else
        sets.countDescendants (insert current seen)
          ((sets.membersOf current).reverse ++ rest)
          (count + (sets.membersOf current).length)
termination_by ((sets.members.keys \ seen).card, stack.length)
decreasing_by
  · exact Prod.Lex.right _ (by simp)
  · next unseen =>
      by_cases isHead : current ∈ sets.members
      · refine Prod.Lex.left _ _ (Finset.card_lt_card ?_)
        refine Finset.ssubset_iff_subset_ne.mpr ⟨?_, ?_⟩
        · exact Finset.sdiff_subset_sdiff (Finset.Subset.refl _) (Finset.subset_insert _ _)
        · intro equality
          have present : current ∈ sets.members.keys \ seen :=
            Finset.mem_sdiff.mpr ⟨Finmap.mem_keys.mpr isHead, unseen⟩
          rw [← equality] at present
          simp at present
      · have noMembers : sets.membersOf current = [] := by
          rw [membersOf, Finmap.lookup_eq_none.mpr isHead, Option.getD_none]
        have sameHeads : sets.members.keys \ insert current seen = sets.members.keys \ seen := by
          refine Finset.ext fun head => ?_
          simp only [Finset.mem_sdiff, Finset.mem_insert, Finmap.mem_keys]
          constructor
          · rintro ⟨headPresent, outside⟩
            exact ⟨headPresent, fun inSeen => outside (.inr inSeen)⟩
          · rintro ⟨headPresent, outside⟩
            refine ⟨headPresent, ?_⟩
            rintro (rfl | inSeen)
            · exact isHead headPresent
            · exact outside inSeen
        rw [noMembers, sameHeads]
        exact Prod.Lex.right _ (by simp)

/-- How many rows sit beneath `path`, however deep. -/
def descendantCount (sets : RowSets Row) (path : Row) : Nat :=
  sets.countDescendants ∅ [path] 0

def setCollapsed (sets : RowSets Row) (head : Row) (collapsed : Bool) : RowSets Row :=
  if collapsed then
    { sets with collapsed := insert head sets.collapsed }
  else
    { sets with collapsed := sets.collapsed.erase head }

/-- The loop of `first_ancestor_at_or_below`; `remaining` is how many more rows
the guard lets it step past. -/
def ancestorWalk (sets : RowSets Row) (target : Row) : Nat → Option Row → Option Row
  | _, none => none
  | remaining, some path =>
      if path = target then
        some path
      else
        match remaining with
        | 0 => none
        | remaining + 1 => sets.ancestorWalk target remaining (sets.parentOf path)

/-- The first path on `source`'s ancestor chain (inclusive) that is `target`. -/
def firstAncestorAtOrBelow (sets : RowSets Row) (source target : Row) : Option Row :=
  sets.ancestorWalk target (sets.parent.keys.card + 1) (some source)

/-- Take `member` out of whatever set holds it. -/
def detach (sets : RowSets Row) (member : Row) : RowSets Row :=
  match sets.parent.lookup member with
  | none => sets
  | some head =>
      let parent := sets.parent.erase member
      match sets.members.lookup head with
      | none => { sets with parent }
      | some slot =>
          let slot := slot.filter fun path => path ≠ member
          if slot = [] then
            { members := sets.members.erase head
              parent
              collapsed := sets.collapsed.erase head }
          else
            { sets with members := sets.members.insert head slot, parent }

/-- Put `member` into `head`'s set at `index`.  The result is the answer and the
value the call leaves behind. -/
def insertMemberWithChildren (sets : RowSets Row) (head member : Row) (index : Option Nat)
    (allowNest : Bool) : Except (RowSetRefusal Row) Unit × RowSets Row :=
  if head = member then
    (.error .selfParent, sets)
  else
    match sets.firstAncestorAtOrBelow head member with
    | some through => (.error (.wouldCycle through), sets)
    | none =>
        if !allowNest && decide (0 < sets.descendantCount member) then
          (.error (.wouldNestHead member (sets.descendantCount member)), sets)
        else
          let detached := sets.detach member
          let slot := detached.membersOf head
          let position := index.elim slot.length fun index => min index slot.length
          (.ok (), { detached with
            members := detached.members.insert head (slot.insertIdx position member)
            parent := detached.parent.insert member head })

def insertMember (sets : RowSets Row) (head member : Row) (index : Option Nat) :
    Except (RowSetRefusal Row) Unit × RowSets Row :=
  sets.insertMemberWithChildren head member index false

/-- The splice of `dissolve`: drop the entry at `position`, then insert the
promoted members one by one.  `Vec::remove` is called at the clamped index. -/
def spliceSlot (slot : List Row) (head : Row) (promoted : List Row) : List Row :=
  let position := (slot.findIdx? fun path => path = head).getD slot.length
  promoted.zipIdx.foldl
    (fun slot entry => slot.insertIdx (min (position + entry.2) slot.length) entry.1)
    (slot.eraseIdx (min position (slot.length - 1)))

/-- The head is going away and its members take its place.  Returns the promoted
members beside the new value. -/
def dissolve (sets : RowSets Row) (head : Row) : List Row × RowSets Row :=
  let promoted := sets.membersOf head
  let members := sets.members.erase head
  let collapsed := sets.collapsed.erase head
  let parent := promoted.foldl (fun parent member => parent.erase member)
    (sets.parent.erase head)
  match sets.parent.lookup head with
  | none => (promoted, { members, parent, collapsed })
  | some grandparent =>
      match members.lookup grandparent with
      | none => (promoted, { members, parent, collapsed })
      | some slot =>
          let slot := spliceSlot slot head promoted
          let parent := promoted.foldl
            (fun parent member => parent.insert member grandparent) parent
          if slot = [] then
            (promoted, { members := members.erase grandparent
                         parent
                         collapsed := collapsed.erase grandparent })
          else
            (promoted, { members := members.insert grandparent slot, parent, collapsed })

/-- The orders in which the three tables of one `retain_live` call are walked. -/
structure Iteration (Row : Type u) where
  members : IterationOrder Row
  parent : IterationOrder Row
  collapsed : IterationOrder Row

/-- The keys of a table that are not live, in the order the table yields them. -/
def departed (order : IterationOrder Row) (keys live : Finset Row) : List Row :=
  (order.keys keys).filter fun path => path ∉ live

def dissolveAll (sets : RowSets Row) (heads : List Row) : RowSets Row :=
  heads.foldl (fun sets head => (sets.dissolve head).2) sets

def detachAll (sets : RowSets Row) (members : List Row) : RowSets Row :=
  members.foldl (fun sets member => sets.detach member) sets

@[simp]
theorem dissolveAll_nil (sets : RowSets Row) : sets.dissolveAll [] = sets := rfl

@[simp]
theorem detachAll_nil (sets : RowSets Row) : sets.detachAll [] = sets := rfl

/-- Drop every row that is not live: departed heads dissolve, departed members
leave, and flags of rows that head nothing any more go.  Returns whether anything
changed. -/
def retainLive (sets : RowSets Row) (iteration : Iteration Row) (live : Finset Row) :
    Bool × RowSets Row :=
  let departedHeads := departed iteration.members sets.members.keys live
  let dissolved := sets.dissolveAll departedHeads
  let departedMembers := departed iteration.parent dissolved.parent.keys live
  let left := dissolved.detachAll departedMembers
  let stale := departed iteration.collapsed left.collapsed left.members.keys
  (departedHeads ≠ [] || departedMembers ≠ [] || stale ≠ [],
    { left with
      collapsed := stale.foldl (fun collapsed head => collapsed.erase head) left.collapsed })

/-- Reorder every set's members by a key of the caller's; the sort is stable. -/
def sortMembersByKey {Key : Type} [LinearOrder Key] (sets : RowSets Row) (key : Row → Key) :
    RowSets Row :=
  { sets with
    members := mapValues
      (fun slot => slot.mergeSort fun first second => key first ≤ key second)
      sets.members }

/-- The mutators of the module, with their arguments. -/
inductive Mutation (Row : Type u) : Type (max u 1) where
  | insertMember (head member : Row) (index : Option Nat)
  | insertMemberWithChildren (head member : Row) (index : Option Nat) (allowNest : Bool)
  | detach (member : Row)
  | dissolve (head : Row)
  | retainLive (iteration : Iteration Row) (live : Finset Row)
  | setCollapsed (head : Row) (collapsed : Bool)
  | sortMembersByKey (Key : Type) (order : LinearOrder Key) (key : Row → Key)

/-- The value a mutator leaves behind; its answer is dropped. -/
def apply (sets : RowSets Row) : Mutation Row → RowSets Row
  | .insertMember head member index => (sets.insertMember head member index).2
  | .insertMemberWithChildren head member index allowNest =>
      (sets.insertMemberWithChildren head member index allowNest).2
  | .detach member => sets.detach member
  | .dissolve head => (sets.dissolve head).2
  | .retainLive iteration live => (sets.retainLive iteration live).2
  | .setCollapsed head collapsed => sets.setCollapsed head collapsed
  | .sortMembersByKey _ _ key => sets.sortMembersByKey key

/-- The value reached from the empty arrangement by a sequence of mutators. -/
def reached (mutations : List (Mutation Row)) : RowSets Row :=
  Runs.run apply empty mutations

/-- `head` holds `member`. -/
def HeldBy (sets : RowSets Row) (member head : Row) : Prop :=
  sets.parentOf member = some head

/-- How often `member` occurs over all member lists together. -/
def occurrences (sets : RowSets Row) (member : Row) : Nat :=
  ∑ head ∈ sets.members.keys, (sets.membersOf head).count member

end RowSets

end Yggterm

/-! ## The default arrangement

Before anyone arranges rows by hand, their outline seats do
(`yggterm-core/src/row_set_outline.rs`): a row sits under the `.0` seat of its level,
or else under the seat one level up. -/

namespace Yggterm.RowSets

open Text

universe u

inductive OutlineKey where
  | numbered (segments : List Nat)
  | unnumbered
  deriving DecidableEq

/-- `parse_outline_key` (`session_outline.rs`), of the stored seat text. -/
def parseOutlineKey : Option (List Char) → OutlineKey
  | none => .unnumbered
  | some stored =>
      let trimmed := (trim stored).rdropWhile (· = '.')
      if trimmed = [] then .unnumbered
      else
        match (trimmed.splitOn '.').mapM fun segment => parseUnsigned 64 (trim segment) with
        | some segments => .numbered segments
        | none => .unnumbered

/-- The seats that could head a row, best first. -/
def headSeatCandidates (segments : List Nat) : List (List Nat) :=
  if segments.length < 2 then []
  else
    let parent := segments.dropLast
    let levelHead := parent ++ [0]
    if levelHead = segments then [parent] else [levelHead, parent]

variable {Row : Type u} [DecidableEq Row]

/-- What the user arranged by hand, and the rows pulled out to the top level. -/
structure RowArrangement (Row : Type u) where
  sets : RowSets Row
  detached : Finset Row

def RowArrangement.default : RowArrangement Row where
  sets := empty
  detached := ∅

def RowArrangement.answered (arrangement : RowArrangement Row) (path : Row) : Bool :=
  (arrangement.sets.parentOf path).isSome || decide (path ∈ arrangement.detached)

def seatedRows (rows : List (Row × Option (List Char))) : List (Row × List Nat) :=
  rows.filterMap fun row =>
    match parseOutlineKey row.2 with
    | .numbered segments => some (row.1, segments)
    | .unnumbered => none

/-- The first row wins a contested seat. -/
def headBySeat (seated : List (Row × List Nat)) (seat : List Nat) : Option Row :=
  (seated.find? fun row => row.2 = seat).map Prod.fst

/-- The head a row is put under. -/
def headFor (seated : List (Row × List Nat)) (row : Row × List Nat) : Option Row :=
  (headSeatCandidates row.2).findSome? fun candidate =>
    (headBySeat seated candidate).filter fun head => head ≠ row.1

/-- The insertions the seats ask for, as heads and members. -/
def seatInserts (seated : List (Row × List Nat)) (arrangement : RowArrangement Row) :
    List (Row × Row) :=
  seated.filterMap fun row =>
    if arrangement.answered row.1 then none
    else (headFor seated row).map fun head => (head, row.1)

/-- One turn of the loop; the answer of `insert_member` is dropped. -/
def seatInsert (sets : RowSets Row) (insert : Row × Row) : RowSets Row :=
  (sets.insertMember insert.1 insert.2 none).2

def outlineRowSetsWith (rows : List (Row × Option (List Char)))
    (arrangement : RowArrangement Row) : RowSets Row :=
  Runs.run seatInsert arrangement.sets (seatInserts (seatedRows rows) arrangement)

def outlineRowSets (rows : List (Row × Option (List Char))) : RowSets Row :=
  outlineRowSetsWith rows RowArrangement.default

end Yggterm.RowSets
