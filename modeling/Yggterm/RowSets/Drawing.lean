import Yggterm.Library.Expansions
import Yggterm.RowSets.Chains
import Yggterm.RowSets.RetainLive

/-!
# What is drawn

`visible_rows` walks the sidebar's own order.  It leaves a row to the nearest drawn row above it
and expands every other row in place, down to what is shut.  On a forest the two walks agree:
the rows seen so far are never in the way, and what is drawn is the expansions of the rows that
have no drawn row above them.
-/

namespace Yggterm.RowSets

open HashMaps Forests

universe u

variable {Row : Type u} [DecidableEq Row]

/-- The rows drawn so far and the rows seen. -/
structure Drawn (Row : Type u) where
  out : List (Row × Nat)
  seen : Finset Row

theorem card_unseen_le (sets : RowSets Row) (path : Row) (seen : Finset Row) :
    (sets.members.keys \ insert path seen).card ≤ (sets.members.keys \ seen).card :=
  Finset.card_le_card
    (Finset.sdiff_subset_sdiff (Finset.Subset.refl _) (Finset.subset_insert path seen))

/-- A head that is seen for the first time. -/
theorem card_unseen_lt (sets : RowSets Row) {path : Row} {seen : Finset Row}
    (unseen : path ∉ seen) (isHead : path ∈ sets.members) :
    (sets.members.keys \ insert path seen).card < (sets.members.keys \ seen).card := by
  apply Finset.card_lt_card
  apply Finset.ssubset_iff_subset_ne.mpr
  refine ⟨Finset.sdiff_subset_sdiff (Finset.Subset.refl _) (Finset.subset_insert _ _), ?_⟩
  intro equality
  have present : path ∈ sets.members.keys \ seen :=
    Finset.mem_sdiff.mpr ⟨Finmap.mem_keys.mpr isHead, unseen⟩
  rw [← equality] at present
  simp at present

/-- Calls of `push_visible` that are still to be made, the next one first: a call puts those for
its members before the others. -/
def pushPending (sets : RowSets Row) (drawn : Drawn Row) (pending : List (Row × Nat)) :
    Drawn Row :=
  match pending with
  | [] => drawn
  | (path, depth) :: rest =>
      if path ∈ drawn.seen then sets.pushPending drawn rest
      else if path ∈ sets.collapsed then
        sets.pushPending ⟨drawn.out ++ [(path, depth)], insert path drawn.seen⟩ rest
      else
        sets.pushPending ⟨drawn.out ++ [(path, depth)], insert path drawn.seen⟩
          ((sets.membersOf path).map (fun member => (member, depth + 1)) ++ rest)
termination_by ((sets.members.keys \ drawn.seen).card, pending.length)
decreasing_by
  · exact Prod.Lex.right _ (by simp)
  · rcases Nat.lt_or_eq_of_le (card_unseen_le sets path drawn.seen) with fewer | same
    · exact Prod.Lex.left _ _ fewer
    · rw [same]
      exact Prod.Lex.right _ (by simp)
  · next unseen _ =>
      by_cases isHead : path ∈ sets.members
      · exact Prod.Lex.left _ _ (card_unseen_lt sets unseen isHead)
      · have noMembers : sets.membersOf path = [] := by
          rw [membersOf, Finmap.lookup_eq_none.mpr isHead, Option.getD_none]
        rw [noMembers]
        rcases Nat.lt_or_eq_of_le (card_unseen_le sets path drawn.seen) with fewer | same
        · exact Prod.Lex.left _ _ fewer
        · rw [same]
          exact Prod.Lex.right _ (by simp)

def pushVisible (sets : RowSets Row) (path : Row) (depth : Nat) (drawn : Drawn Row) : Drawn Row :=
  sets.pushPending drawn [(path, depth)]

/-- One turn of the loop of `visible_rows`. -/
def visit (sets : RowSets Row) (present : Finset Row) (drawn : Drawn Row) (path : Row) :
    Drawn Row :=
  if sets.drawnAncestorExists path present then drawn else sets.pushVisible path 0 drawn

/-- The rows to draw, each with its nesting depth. -/
def visibleRows (sets : RowSets Row) (topLevel : List Row) : List (Row × Nat) :=
  (topLevel.foldl (sets.visit topLevel.toFinset) ⟨[], ∅⟩).out

/-- A row is reached from the top downwards as often as upwards. -/
theorem WellFormed.openPath_iff {sets : RowSets Row} (wellFormed : sets.WellFormed)
    {lower upper : Row} {hops : Nat} :
    wellFormed.forest.OpenPath (· ∈ sets.collapsed) hops lower upper ↔
      sets.ancestorAt lower hops = some upper ∧ sets.OpenUpTo lower hops := by
  induction hops generalizing lower with
  | zero =>
      constructor
      · intro path
        cases path
        refine ⟨rfl, ?_⟩
        intro step positive within
        omega
      · rintro ⟨above, _⟩
        obtain rfl := Option.some.inj above
        exact .here lower
  | succ hops inductionHypothesis =>
      constructor
      · intro path
        cases path with
        | up isChild isOpen rest =>
            have held := wellFormed.parent_iff.mpr isChild
            obtain ⟨above, restOpen⟩ := inductionHypothesis.mp rest
            exact ⟨(ancestorAt_succ held hops).trans above,
              (OpenUpTo.succ_iff held hops).mpr ⟨isOpen, restOpen⟩⟩
      · rintro ⟨above, isOpen⟩
        obtain ⟨head, held, onward⟩ := Option.bind_eq_some_iff.mp above
        obtain ⟨headOpen, restOpen⟩ := (OpenUpTo.succ_iff held hops).mp isOpen
        exact .up (wellFormed.parent_iff.mp held) headOpen
          (inductionHypothesis.mpr ⟨onward, restOpen⟩)

/-! ## The walk down -/

theorem pushPending_append (sets : RowSets Row) (drawn : Drawn Row)
    (first second : List (Row × Nat)) :
    sets.pushPending drawn (first ++ second) =
      sets.pushPending (sets.pushPending drawn first) second := by
  induction drawn, first using pushPending.induct sets with
  | case1 drawn => rw [List.nil_append, pushPending]
  | case2 drawn path depth rest isSeen inductionHypothesis =>
      rw [List.cons_append, pushPending, if_pos isSeen, inductionHypothesis, pushPending,
        if_pos isSeen]
  | case3 drawn path depth rest unseen isShut inductionHypothesis =>
      rw [List.cons_append, pushPending, if_neg unseen, if_pos isShut, inductionHypothesis,
        pushPending, if_neg unseen, if_pos isShut]
  | case4 drawn path depth rest unseen isOpen inductionHypothesis =>
      rw [List.cons_append, pushPending, if_neg unseen, if_neg isOpen, ← List.append_assoc,
        inductionHypothesis, pushPending.eq_def sets drawn (_ :: _)]
      simp only [if_neg unseen, if_neg isOpen]

theorem pushPending_eq_foldl (sets : RowSets Row) (drawn : Drawn Row)
    (pending : List (Row × Nat)) :
    sets.pushPending drawn pending =
      pending.foldl (fun drawn call => sets.pushVisible call.1 call.2 drawn) drawn := by
  induction pending generalizing drawn with
  | nil => rw [pushPending, List.foldl_nil]
  | cons call rest inductionHypothesis =>
      rw [List.foldl_cons, ← inductionHypothesis, pushVisible, ← pushPending_append,
        List.singleton_append]

/-- The recursion of `push_visible`. -/
theorem pushVisible_eq (sets : RowSets Row) (path : Row) (depth : Nat) (drawn : Drawn Row) :
    sets.pushVisible path depth drawn =
      if path ∈ drawn.seen then drawn
      else if path ∈ sets.collapsed then
        ⟨drawn.out ++ [(path, depth)], insert path drawn.seen⟩
      else
        (sets.membersOf path).foldl (fun drawn member => sets.pushVisible member (depth + 1) drawn)
          ⟨drawn.out ++ [(path, depth)], insert path drawn.seen⟩ := by
  rw [pushVisible, pushPending, pushPending, pushPending, List.append_nil, pushPending_eq_foldl,
    List.foldl_map]

def Drawn.push (drawn : Drawn Row) (rows : List (Row × Nat)) : Drawn Row :=
  ⟨drawn.out ++ rows, drawn.seen ∪ (rows.map Prod.fst).toFinset⟩

@[simp]
theorem Drawn.push_nil (drawn : Drawn Row) : drawn.push [] = drawn := by
  simp [push]

theorem Drawn.push_push (drawn : Drawn Row) (first second : List (Row × Nat)) :
    (drawn.push first).push second = drawn.push (first ++ second) := by
  simp [push]

theorem Drawn.push_singleton (drawn : Drawn Row) (path : Row) (depth : Nat) :
    drawn.push [(path, depth)] = ⟨drawn.out ++ [(path, depth)], insert path drawn.seen⟩ := by
  rw [push, Finset.insert_eq, Finset.union_comm {path}]
  simp

namespace WellFormed

variable {sets : RowSets Row} (wellFormed : sets.WellFormed)

/-- What is drawn from a row in place. -/
def expansion (path : Row) (depth : Nat) : List (Row × Nat) :=
  wellFormed.forest.expansion (· ∈ sets.collapsed) path depth

/-- Nothing at or below the row was seen. -/
def Unseen (drawn : Drawn Row) (path : Row) : Prop :=
  ∀ lower, wellFormed.forest.AtOrBelow lower path → lower ∉ drawn.seen

variable {wellFormed}

theorem Unseen.push {drawn : Drawn Row} {path other : Row} (unseen : wellFormed.Unseen drawn path)
    (apart : ∀ lower, wellFormed.forest.AtOrBelow lower path →
      ¬ wellFormed.forest.AtOrBelow lower other) (depth : Nat) :
    wellFormed.Unseen (drawn.push (wellFormed.expansion other depth)) path := by
  intro lower below inside
  rcases Finset.mem_union.mp inside with earlier | pushed
  · exact unseen lower below earlier
  · obtain ⟨entry, isEntry, rfl⟩ := List.mem_map.mp (List.mem_toFinset.mp pushed)
    exact apart entry.1 below (OrderedForest.atOrBelow_of_mem_expansion isEntry)

theorem expansion_eq (path : Row) (depth : Nat) :
    wellFormed.expansion path depth = (path, depth) ::
      if path ∈ sets.collapsed then []
      else (sets.membersOf path).flatMap fun member => wellFormed.expansion member (depth + 1) :=
  OrderedForest.expansion_eq _ _ _ _

/-- Rows with nothing below them in common are drawn one after another. -/
theorem foldl_pushVisible {rows : List Row} {drawn : Drawn Row} {depth : Nat}
    (draws : ∀ row ∈ rows, ∀ before : Drawn Row, wellFormed.Unseen before row →
      sets.pushVisible row depth before = before.push (wellFormed.expansion row depth))
    (apart : rows.Pairwise fun first second => ∀ lower,
      wellFormed.forest.AtOrBelow lower second → ¬ wellFormed.forest.AtOrBelow lower first)
    (unseen : ∀ row ∈ rows, wellFormed.Unseen drawn row) :
    rows.foldl (fun drawn row => sets.pushVisible row depth drawn) drawn =
      drawn.push (rows.flatMap fun row => wellFormed.expansion row depth) := by
  induction rows generalizing drawn with
  | nil => simp
  | cons row rest inductionHypothesis =>
      rw [List.pairwise_cons] at apart
      rw [List.foldl_cons, List.flatMap_cons, ← Drawn.push_push,
        draws row List.mem_cons_self drawn (unseen row List.mem_cons_self)]
      apply inductionHypothesis ?_ apart.2
      · intro other inRest
        exact (unseen other (List.mem_cons_of_mem row inRest)).push (apart.1 other inRest) depth
      · intro other inRest
        exact draws other (List.mem_cons_of_mem row inRest)

/-- On rows nothing of which was seen, the recursion draws the expansion. -/
theorem pushVisible_of_unseen {path : Row} {drawn : Drawn Row} (depth : Nat)
    (unseen : wellFormed.Unseen drawn path) :
    sets.pushVisible path depth drawn = drawn.push (wellFormed.expansion path depth) := by
  induction path using wellFormed.forest.wellFounded.induction generalizing depth drawn with
  | _ path inductionHypothesis =>
      rw [pushVisible_eq, if_neg (unseen path .refl), expansion_eq, ← Drawn.push_singleton]
      split
      · rfl
      · rw [foldl_pushVisible, Drawn.push_push, List.singleton_append]
        · intro member isMember before
          exact inductionHypothesis member isMember (depth + 1)
        · apply (wellFormed.nodup path).pairwise_of_forall_ne
          intro first isFirst second isSecond different lower belowSecond belowFirst
          exact different
            (OrderedForest.eq_of_atOrBelow_children isFirst isSecond belowFirst belowSecond)
        · intro member isMember lower below inside
          rw [Drawn.push_singleton, Finset.mem_insert] at inside
          rcases inside with rfl | earlier
          · apply OrderedForest.Ancestor.irrefl wellFormed.forest lower
            exact Relation.TransGen.tail' below isMember
          · exact unseen lower (below.tail isMember) earlier

/-! ## The rows with no drawn row above them -/

/-- A listed row that no listed row is above. -/
def IsRoot (sets : RowSets Row) (order : List Row) (path : Row) : Prop :=
  path ∈ order ∧ ∀ other ∈ order, ¬ Relation.TransGen sets.HeldBy path other

theorem drawnAncestorExists_eq_false_iff (wellFormed : sets.WellFormed) {order : List Row}
    {path : Row} (listed : path ∈ order) :
    sets.drawnAncestorExists path order.toFinset = false ↔ IsRoot sets order path := by
  rw [← Bool.not_eq_true, drawnAncestorExists_iff wellFormed.acyclic, IsRoot]
  simp [listed]

theorem transGen_of_atOrBelow (wellFormed : sets.WellFormed) {lower path : Row}
    (below : wellFormed.forest.AtOrBelow lower path) :
    lower = path ∨ Relation.TransGen sets.HeldBy lower path := by
  rw [← wellFormed.ancestor_iff]
  exact OrderedForest.atOrBelow_iff.mp below

/-- Below two roots there is no row in common. -/
theorem eq_of_atOrBelow_roots (wellFormed : sets.WellFormed) {order : List Row}
    {first second lower : Row} (isFirst : IsRoot sets order first)
    (isSecond : IsRoot sets order second) (belowFirst : wellFormed.forest.AtOrBelow lower first)
    (belowSecond : wellFormed.forest.AtOrBelow lower second) : first = second := by
  rcases belowFirst.linear belowSecond with below | below
  · rcases wellFormed.transGen_of_atOrBelow below with same | above
    · exact same
    · exact absurd above (isFirst.2 second isSecond.1)
  · rcases wellFormed.transGen_of_atOrBelow below with same | above
    · exact same.symm
    · exact absurd above (isSecond.2 first isFirst.1)

/-- The roots among the rows walked so far, in the sidebar's order. -/
structure Roots (sets : RowSets Row) (order walked roots : List Row) : Prop where
  sublist : roots.Sublist walked
  nodup : roots.Nodup
  mem_iff : ∀ path, path ∈ roots ↔ path ∈ walked ∧ IsRoot sets order path

def drawnFrom (wellFormed : sets.WellFormed) (roots : List Row) : Drawn Row :=
  Drawn.push ⟨[], ∅⟩ (roots.flatMap fun root => wellFormed.expansion root 0)

theorem mem_seen_drawnFrom_iff (wellFormed : sets.WellFormed) {roots : List Row} {path : Row} :
    path ∈ (wellFormed.drawnFrom roots).seen ↔
      ∃ root ∈ roots, ∃ entry ∈ wellFormed.expansion root 0, entry.1 = path := by
  rw [drawnFrom, Drawn.push, Finset.empty_union, List.mem_toFinset, List.mem_map]
  constructor
  · rintro ⟨entry, inside, isPath⟩
    obtain ⟨root, isRoot, drawn⟩ := List.mem_flatMap.mp inside
    exact ⟨root, isRoot, entry, drawn, isPath⟩
  · rintro ⟨root, isRoot, entry, drawn, isPath⟩
    exact ⟨entry, List.mem_flatMap.mpr ⟨root, isRoot, drawn⟩, isPath⟩

theorem Roots.skip {order walked roots : List Row} {path : Row}
    (sofar : Roots sets order walked roots) (drawn : IsRoot sets order path → path ∈ roots) :
    Roots sets order (walked ++ [path]) roots where
  sublist := sofar.sublist.trans (List.sublist_append_left walked [path])
  nodup := sofar.nodup
  mem_iff other := by
    rw [List.mem_append, List.mem_singleton]
    constructor
    · intro isRoot
      obtain ⟨inWalked, otherRoot⟩ := (sofar.mem_iff other).mp isRoot
      exact ⟨.inl inWalked, otherRoot⟩
    · rintro ⟨inWalked | rfl, otherRoot⟩
      · exact (sofar.mem_iff other).mpr ⟨inWalked, otherRoot⟩
      · exact drawn otherRoot

theorem Roots.concat {order walked roots : List Row} {path : Row}
    (sofar : Roots sets order walked roots) (isRoot : IsRoot sets order path)
    (new : path ∉ roots) : Roots sets order (walked ++ [path]) (roots ++ [path]) where
  sublist := sofar.sublist.append (List.Sublist.refl [path])
  nodup := by
    rw [← List.concat_eq_append]
    exact List.Nodup.concat new sofar.nodup
  mem_iff other := by
    rw [List.mem_append, List.mem_append, List.mem_singleton, sofar.mem_iff]
    constructor
    · rintro (⟨inWalked, otherRoot⟩ | rfl)
      · exact ⟨.inl inWalked, otherRoot⟩
      · exact ⟨.inr rfl, isRoot⟩
    · rintro ⟨inWalked | isPath, otherRoot⟩
      · exact .inl ⟨inWalked, otherRoot⟩
      · exact .inr isPath

theorem visit_spec (wellFormed : sets.WellFormed) {order walked roots : List Row} {path : Row}
    (sofar : Roots sets order walked roots) (listed : path ∈ order) :
    ∃ more, Roots sets order (walked ++ [path]) more ∧
      sets.visit order.toFinset (wellFormed.drawnFrom roots) path =
        wellFormed.drawnFrom more := by
  rw [visit]
  cases isRoot : sets.drawnAncestorExists path order.toFinset with
  | true =>
      refine ⟨roots, sofar.skip ?_, rfl⟩
      intro pathRoot
      rw [(wellFormed.drawnAncestorExists_eq_false_iff listed).mpr pathRoot] at isRoot
      cases isRoot
  | false =>
      have pathRoot := (wellFormed.drawnAncestorExists_eq_false_iff listed).mp isRoot
      rw [if_neg Bool.false_ne_true]
      by_cases already : path ∈ roots
      · -- a row that is listed twice was seen the first time
        have seen : path ∈ (wellFormed.drawnFrom roots).seen := by
          apply wellFormed.mem_seen_drawnFrom_iff.mpr
          refine ⟨path, already, (path, 0), ?_, rfl⟩
          rw [expansion_eq]
          exact List.mem_cons_self
        rw [pushVisible_eq, if_pos seen]
        exact ⟨roots, sofar.skip fun _ => already, rfl⟩
      · have unseen : wellFormed.Unseen (wellFormed.drawnFrom roots) path := by
          intro lower below inside
          obtain ⟨root, inRoots, entry, drawnBelow, rfl⟩ :=
            wellFormed.mem_seen_drawnFrom_iff.mp inside
          apply already
          rw [wellFormed.eq_of_atOrBelow_roots pathRoot ((sofar.mem_iff root).mp inRoots).2 below
            (OrderedForest.atOrBelow_of_mem_expansion drawnBelow)]
          exact inRoots
        refine ⟨roots ++ [path], sofar.concat pathRoot already, ?_⟩
        rw [pushVisible_of_unseen 0 unseen, drawnFrom, Drawn.push_push, drawnFrom,
          List.flatMap_append, List.flatMap_singleton]

theorem walk_spec (wellFormed : sets.WellFormed) (order walked : List Row)
    (listed : ∀ path ∈ walked, path ∈ order) :
    ∃ roots, Roots sets order walked roots ∧
      walked.foldl (sets.visit order.toFinset) ⟨[], ∅⟩ = wellFormed.drawnFrom roots := by
  induction walked using List.reverseRecOn with
  | nil => exact ⟨[], ⟨.slnil, List.nodup_nil, by simp⟩, rfl⟩
  | append_singleton walked path inductionHypothesis =>
      obtain ⟨roots, sofar, walk⟩ := inductionHypothesis fun other inWalked =>
        listed other (List.mem_append_left [path] inWalked)
      rw [List.foldl_append, walk]
      exact wellFormed.visit_spec sofar (listed path (by simp))

/-- What is drawn is the expansions of the roots, in the sidebar's order. -/
theorem visibleRows_eq (wellFormed : sets.WellFormed) (order : List Row) :
    ∃ roots, Roots sets order order roots ∧
      sets.visibleRows order = roots.flatMap fun root => wellFormed.expansion root 0 := by
  obtain ⟨roots, isRoots, walk⟩ := wellFormed.walk_spec order order fun _ => id
  refine ⟨roots, isRoots, ?_⟩
  rw [visibleRows, walk]
  rfl

theorem Roots.mem_iff_isRoot {order roots : List Row} (isRoots : Roots sets order order roots)
    (path : Row) : path ∈ roots ↔ IsRoot sets order path := by
  rw [isRoots.mem_iff]
  exact ⟨And.right, fun isRoot => ⟨isRoot.1, isRoot⟩⟩

/-- No row is drawn twice. -/
theorem nodup_visibleRows (wellFormed : sets.WellFormed) (order : List Row) :
    ((sets.visibleRows order).map Prod.fst).Nodup := by
  obtain ⟨roots, isRoots, drawn⟩ := wellFormed.visibleRows_eq order
  rw [drawn, List.map_flatMap, List.nodup_flatMap]
  constructor
  · intro root _
    exact OrderedForest.nodup_expansion wellFormed.nodup root 0
  · apply isRoots.nodup.pairwise_of_forall_ne
    intro first isFirst second isSecond different lower inFirst inSecond
    obtain ⟨firstEntry, drawnFirst, rfl⟩ := List.mem_map.mp inFirst
    obtain ⟨secondEntry, drawnSecond, same⟩ := List.mem_map.mp inSecond
    apply different
    apply wellFormed.eq_of_atOrBelow_roots ((isRoots.mem_iff_isRoot first).mp isFirst)
      ((isRoots.mem_iff_isRoot second).mp isSecond)
      (OrderedForest.atOrBelow_of_mem_expansion drawnFirst)
    rw [← same]
    exact OrderedForest.atOrBelow_of_mem_expansion drawnSecond

theorem mem_visibleRows_iff (wellFormed : sets.WellFormed) {order : List Row} {path : Row}
    {depth : Nat} :
    (path, depth) ∈ sets.visibleRows order ↔
      ∃ root, IsRoot sets order root ∧ sets.ancestorAt path depth = some root ∧
        sets.OpenUpTo path depth := by
  obtain ⟨roots, isRoots, drawn⟩ := wellFormed.visibleRows_eq order
  rw [drawn, List.mem_flatMap]
  apply exists_congr
  intro root
  rw [isRoots.mem_iff_isRoot, expansion, OrderedForest.mem_expansion_iff]
  simp only [Nat.zero_add, exists_eq_left', wellFormed.openPath_iff]

/-- A row that is not drawn at the top level stands in the block of its head. -/
theorem visibleRows_split (wellFormed : sets.WellFormed) {order : List Row} {path : Row}
    {depth : Nat} (drawn : (path, depth + 1) ∈ sets.visibleRows order) :
    ∃ head front between behind, sets.parentOf path = some head ∧
      sets.visibleRows order =
        front ++ (head, depth) :: between ++ (path, depth + 1) :: behind ∧
      ∀ entry ∈ between, Relation.TransGen sets.HeldBy entry.1 head := by
  obtain ⟨roots, _, isDrawn⟩ := wellFormed.visibleRows_eq order
  rw [isDrawn] at drawn ⊢
  obtain ⟨root, isRoot, inside⟩ := List.mem_flatMap.mp drawn
  obtain ⟨hops, sameDepth, way⟩ := OrderedForest.mem_expansion_iff.mp inside
  obtain rfl : hops = depth + 1 := by omega
  cases way with
  | @up _ _ head _ isChild isOpen rest =>
      have headDrawn : (head, depth) ∈ wellFormed.expansion root 0 :=
        OrderedForest.mem_expansion_iff.mpr ⟨depth, (Nat.zero_add depth).symm, rest⟩
      obtain ⟨before, after, around⟩ := OrderedForest.expansion_infix headDrawn
      obtain ⟨between, behind, block, below⟩ :=
        OrderedForest.expansion_split isChild isOpen depth
      obtain ⟨earlier, later, rfl⟩ := List.append_of_mem isRoot
      refine ⟨head, (earlier.flatMap fun root => wellFormed.expansion root 0) ++ before, between,
        behind ++ after ++ later.flatMap fun root => wellFormed.expansion root 0,
        wellFormed.parent_iff.mpr isChild, ?_, ?_⟩
      · rw [List.flatMap_append, List.flatMap_cons, expansion, ← around, block]
        simp only [List.append_assoc, List.cons_append]
      · intro entry inBetween
        exact (wellFormed.ancestor_iff entry.1 head).mp (below entry inBetween)

end WellFormed

theorem IsTop.isRoot {sets : RowSets Row} {order : List Row} {path top : Row} {hops : Nat}
    (isTop : sets.IsTop order path top hops) : WellFormed.IsRoot sets order top := by
  refine ⟨isTop.listed, ?_⟩
  intro other listed above
  obtain ⟨further, isOther⟩ := transGen_iff_ancestorAt.mp above
  apply isTop.highest (hops + (further + 1)) (by omega) other ?_ listed
  rw [ancestorAt_add isTop.above]
  exact isOther

/-- The only root at or above a row is its top. -/
theorem IsTop.unique {sets : RowSets Row} {order : List Row} {path top root : Row}
    {hops depth : Nat} (isTop : sets.IsTop order path top hops)
    (isRoot : WellFormed.IsRoot sets order root)
    (above : sets.ancestorAt path depth = some root) : depth = hops := by
  rcases Nat.lt_trichotomy depth hops with lower | same | higher
  · obtain ⟨further, rfl⟩ := Nat.exists_eq_add_of_lt lower
    have onward := isTop.above
    rw [Nat.add_assoc, ancestorAt_add above] at onward
    exact absurd (transGen_iff_ancestorAt.mpr ⟨further, onward⟩)
      (isRoot.2 top isTop.listed)
  · exact same
  · exact absurd isRoot.1 (isTop.highest depth higher root above)

theorem WellFormed.drawn_iff {sets : RowSets Row} (wellFormed : sets.WellFormed)
    {order : List Row} {path top : Row} {hops : Nat} (isTop : sets.IsTop order path top hops) :
    path ∈ (sets.visibleRows order).map Prod.fst ↔ sets.OpenUpTo path hops := by
  constructor
  · intro inside
    obtain ⟨⟨_, depth⟩, isDrawn, rfl⟩ := List.mem_map.mp inside
    obtain ⟨root, isRoot, above, isOpen⟩ := wellFormed.mem_visibleRows_iff.mp isDrawn
    exact isTop.unique isRoot above ▸ isOpen
  · intro isOpen
    apply List.mem_map.mpr
    refine ⟨(path, hops), ?_, rfl⟩
    exact wellFormed.mem_visibleRows_iff.mpr ⟨top, isTop.isRoot, isTop.above, isOpen⟩

/-- The arrangement makes no row disappear: what is not drawn is below something shut. -/
theorem WellFormed.drawn_or_shut_above {sets : RowSets Row} (wellFormed : sets.WellFormed)
    {order : List Row} {path : Row} (listed : path ∈ order) :
    path ∈ (sets.visibleRows order).map Prod.fst ∨
      ∃ ancestor ∈ sets.collapsed, Relation.TransGen sets.HeldBy path ancestor := by
  obtain ⟨top, hops, isTop⟩ := wellFormed.exists_isTop order listed
  by_cases isOpen : sets.OpenUpTo path hops
  · exact .inl ((wellFormed.drawn_iff isTop).mpr isOpen)
  · right
    rw [OpenUpTo] at isOpen
    push Not at isOpen
    obtain ⟨step, positive, _, head, isHead, isShut⟩ := isOpen
    obtain ⟨further, rfl⟩ := Nat.exists_eq_add_of_lt positive
    rw [Nat.zero_add] at isHead
    exact ⟨head, isShut, transGen_iff_ancestorAt.mpr ⟨further, isHead⟩⟩

/-- A row all of whose ancestors are listed is drawn exactly when it is not hidden. -/
theorem WellFormed.drawn_iff_not_isHidden {sets : RowSets Row} (wellFormed : sets.WellFormed)
    {order : List Row} {path : Row} (listed : path ∈ order)
    (listedAbove : ∀ ancestor, Relation.TransGen sets.HeldBy path ancestor → ancestor ∈ order) :
    path ∈ (sets.visibleRows order).map Prod.fst ↔ sets.isHidden path = false := by
  obtain ⟨top, hops, isTop⟩ := wellFormed.exists_isTop order listed
  rw [wellFormed.drawn_iff isTop, ← Bool.not_eq_true, isHidden_iff wellFormed.acyclic]
  constructor
  · rintro isOpen ⟨ancestor, isShut, above⟩
    obtain ⟨further, isAncestor⟩ := transGen_iff_ancestorAt.mp above
    apply isOpen (further + 1) (Nat.succ_pos further) ?_ ancestor isAncestor isShut
    by_contra beyond
    exact isTop.highest (further + 1) (by omega) ancestor isAncestor (listedAbove ancestor above)
  · intro notHidden step positive _ head isHead isShut
    obtain ⟨further, rfl⟩ := Nat.exists_eq_add_of_lt positive
    rw [Nat.zero_add] at isHead
    exact notHidden ⟨head, isShut, transGen_iff_ancestorAt.mpr ⟨further, isHead⟩⟩

/-- `visible_rows` draws the arrangement: a listed row is drawn exactly when nothing above it up
to its top is shut, once, as deep as the top is far, in the block of its head. -/
theorem visibleRows_draws (mutations : List (Mutation Row)) (order : List Row) :
    let sets := reached mutations
    let drawn := sets.visibleRows order
    (drawn.map Prod.fst).Nodup ∧
      ∀ path ∈ order, ∃ top hops, sets.IsTop order path top hops ∧
        (path ∈ drawn.map Prod.fst ↔ sets.OpenUpTo path hops) ∧
        ∀ depth, (path, depth) ∈ drawn → depth = hops ∧
          (0 < hops → ∃ head front between behind, sets.parentOf path = some head ∧
            drawn = front ++ (head, hops - 1) :: between ++ (path, hops) :: behind ∧
            ∀ entry ∈ between, Relation.TransGen sets.HeldBy entry.1 head) := by
  intro sets drawn
  have wellFormed : sets.WellFormed := wellFormed_reached mutations
  refine ⟨wellFormed.nodup_visibleRows order, ?_⟩
  intro path listed
  obtain ⟨top, hops, isTop⟩ := wellFormed.exists_isTop order listed
  have depthOf : ∀ depth, (path, depth) ∈ drawn → depth = hops := by
    intro depth inside
    obtain ⟨root, isRoot, above, _⟩ := wellFormed.mem_visibleRows_iff.mp inside
    exact isTop.unique isRoot above
  refine ⟨top, hops, isTop, wellFormed.drawn_iff isTop, ?_⟩
  intro depth inside
  obtain rfl := depthOf depth inside
  refine ⟨rfl, ?_⟩
  intro positive
  obtain ⟨deeper, rfl⟩ := Nat.exists_eq_add_of_lt positive
  rw [Nat.zero_add] at inside ⊢
  exact wellFormed.visibleRows_split inside

end Yggterm.RowSets
