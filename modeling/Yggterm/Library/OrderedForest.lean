import Mathlib.Data.Finset.Card
import Mathlib.Data.List.Flatten
import Mathlib.Data.List.Nodup
import Mathlib.Logic.Relation
import Mathlib.Order.WellFounded

/-!
# Ordered forests

A forest is given by the ordered list of children under each node.  Its two
readings are the depth-first listing below a node and the frontier: the nearest
kept nodes strictly below it.  Splicing a node out puts its children in its
place; the frontier cannot see that a node it does not keep was spliced out.
-/

namespace Forests

universe u

/-- No node is strictly above itself, at any number of hops. -/
def Acyclic {Node : Type u} (related : Node → Node → Prop) : Prop :=
  ∀ node, ¬ Relation.TransGen related node node

namespace Acyclic

variable {Node : Type u} {related : Node → Node → Prop}

theorem of_subset_transGen {other : Node → Node → Prop} (acyclic : Acyclic related)
    (included : ∀ lower upper, other lower upper → Relation.TransGen related lower upper) :
    Acyclic other := by
  have lifted : ∀ {lower upper}, Relation.TransGen other lower upper →
      Relation.TransGen related lower upper := by
    intro lower upper path
    induction path with
    | single edge => exact included _ _ edge
    | tail _ edge inductionHypothesis => exact inductionHypothesis.trans (included _ _ edge)
  exact fun node cycle => acyclic node (lifted cycle)

/-- Adding one edge from `member` to `head` closes no loop as long as `member`
is not at or above `head`. -/
theorem insert_edge {other : Node → Node → Prop} {member head : Node}
    (acyclic : Acyclic related)
    (included : ∀ lower upper, other lower upper →
      related lower upper ∨ (lower = member ∧ upper = head))
    (separate : ¬ Relation.ReflTransGen related head member) : Acyclic other := by
  have decompose : ∀ {lower upper}, Relation.TransGen other lower upper →
      Relation.TransGen related lower upper ∨
        (Relation.ReflTransGen related lower member ∧
          Relation.ReflTransGen related head upper) := by
    intro lower upper path
    induction path with
    | single edge =>
        rcases included _ _ edge with old | ⟨rfl, rfl⟩
        · exact .inl (.single old)
        · exact .inr ⟨.refl, .refl⟩
    | tail _ edge inductionHypothesis =>
        rcases included _ _ edge with old | ⟨rfl, rfl⟩
        · rcases inductionHypothesis with path | ⟨toMember, fromHead⟩
          · exact .inl (path.tail old)
          · exact .inr ⟨toMember, fromHead.tail old⟩
        · rcases inductionHypothesis with path | ⟨toMember, fromHead⟩
          · exact .inr ⟨path.to_reflTransGen, .refl⟩
          · exact absurd fromHead separate
  intro node cycle
  rcases decompose cycle with old | ⟨toMember, fromHead⟩
  · exact acyclic node old
  · exact separate (fromHead.trans toMember)

/-- An acyclic relation whose lower ends all lie in a finite set is well
founded: each step down leaves a smaller set of nodes below. -/
theorem wellFounded [DecidableEq Node] (acyclic : Acyclic related) (support : Finset Node)
    (supported : ∀ lower upper, related lower upper → lower ∈ support) :
    WellFounded related := by
  have accessible : ∀ (size : Nat) (below : Finset Node) (node : Node), below.card ≤ size →
      (∀ lower, Relation.TransGen related lower node → lower ∈ below) →
      Acc related node := by
    intro size
    induction size with
    | zero =>
        intro below node small contains
        refine Acc.intro node fun lower edge => ?_
        have member := contains lower (.single edge)
        rw [Finset.card_eq_zero.mp (Nat.le_zero.mp small)] at member
        simp at member
    | succ size inductionHypothesis =>
        intro below node small contains
        refine Acc.intro node fun lower edge => ?_
        have member := contains lower (.single edge)
        refine inductionHypothesis (below.erase lower) lower ?_ ?_
        · rw [Finset.card_erase_of_mem member]
          omega
        · intro lowest path
          refine Finset.mem_erase.mpr ⟨?_, contains lowest (path.tail edge)⟩
          rintro rfl
          exact acyclic lowest path
  refine ⟨fun node => accessible support.card support node le_rfl ?_⟩
  intro lower path
  cases Relation.TransGen.head'_iff.mp path with
  | intro upper edge => exact supported lower upper edge.1

end Acyclic

/-- Ordered children under every node, with at most one parent each and no
infinite descent. -/
structure OrderedForest (Node : Type u) where
  children : Node → List Node
  oneParent : ∀ {child first second},
    child ∈ children first → child ∈ children second → first = second
  wellFounded : WellFounded fun child node => child ∈ children node

namespace OrderedForest

variable {Node : Type u}

/-- `node` is strictly above `lower`. -/
def Ancestor (forest : OrderedForest Node) (lower node : Node) : Prop :=
  Relation.TransGen (fun child parent => child ∈ forest.children parent) lower node

theorem Ancestor.irrefl (forest : OrderedForest Node) (node : Node) :
    ¬ forest.Ancestor node node := fun cycle =>
  (forest.wellFounded.transGen).irrefl.irrefl node cycle

/-- The only way up from a child leads through its parent. -/
theorem ancestor_iff_of_child (forest : OrderedForest Node) {child parent node : Node}
    (isChild : child ∈ forest.children parent) :
    forest.Ancestor child node ↔ node = parent ∨ forest.Ancestor parent node := by
  constructor
  · intro path
    rcases Relation.TransGen.head'_iff.mp path with ⟨upper, edge, rest⟩
    obtain rfl := forest.oneParent isChild edge
    rcases Relation.reflTransGen_iff_eq_or_transGen.mp rest with equality | strict
    · exact .inl equality
    · exact .inr strict
  · rintro (rfl | path)
    · exact .single isChild
    · exact .head isChild path

/-- The nodes below a node in depth-first order. -/
def listing (forest : OrderedForest Node) (node : Node) : List Node :=
  (forest.children node).attach.flatMap fun child => child.1 :: forest.listing child.1
termination_by forest.wellFounded.wrap node
decreasing_by exact child.2

theorem listing_eq (forest : OrderedForest Node) (node : Node) :
    forest.listing node =
      (forest.children node).flatMap fun child => child :: forest.listing child := by
  rw [listing]
  conv_rhs => rw [← List.attach_map_subtype_val (forest.children node)]
  rw [List.flatMap_map]

/-- The nearest kept nodes strictly below a node, in depth-first order. -/
def frontier (forest : OrderedForest Node) (keep : Node → Prop) [DecidablePred keep]
    (node : Node) : List Node :=
  (forest.children node).attach.flatMap fun child =>
    if keep child.1 then [child.1] else forest.frontier keep child.1
termination_by forest.wellFounded.wrap node
decreasing_by exact child.2

variable (keep : Node → Prop) [DecidablePred keep]

theorem frontier_eq (forest : OrderedForest Node) (node : Node) :
    forest.frontier keep node = (forest.children node).flatMap fun child =>
      if keep child then [child] else forest.frontier keep child := by
  rw [frontier]
  conv_rhs => rw [← List.attach_map_subtype_val (forest.children node)]
  rw [List.flatMap_map]

/-- Nothing is left to skip when every child is kept. -/
theorem frontier_eq_children (forest : OrderedForest Node) (node : Node)
    (kept : ∀ child ∈ forest.children node, keep child) :
    forest.frontier keep node = forest.children node := by
  rw [frontier_eq]
  have collapse : (forest.children node).flatMap (fun child =>
      if keep child then [child] else forest.frontier keep child) =
      (forest.children node).flatMap fun child => [child] := by
    refine List.flatMap_congr fun child member => ?_
    rw [if_pos (kept child member)]
  rw [collapse, List.flatMap_singleton']

theorem frontier_sublist_listing (forest : OrderedForest Node) (node : Node) :
    (forest.frontier keep node).Sublist (forest.listing node) := by
  induction node using forest.wellFounded.induction with
  | _ node inductionHypothesis =>
      rw [frontier_eq, listing_eq, List.flatMap_def, List.flatMap_def]
      have pieces : ∀ nodes : List Node, (∀ child ∈ nodes, child ∈ forest.children node) →
          ((nodes.map fun child => if keep child then [child]
            else forest.frontier keep child).flatten).Sublist
          ((nodes.map fun child => child :: forest.listing child).flatten) := by
        intro nodes below
        induction nodes with
        | nil => simp
        | cons child rest restHypothesis =>
            simp only [List.map_cons, List.flatten_cons]
            refine List.Sublist.append ?_
              (restHypothesis fun other member => below other (by simp [member]))
            split
            · exact (List.nil_sublist _).cons_cons child
            · exact (inductionHypothesis child (below child (by simp))).cons child
      exact pieces _ fun _ member => member

/-- A kept node is on the frontier of `node` exactly when `node` is above it
with every other kept ancestor further up. -/
theorem mem_frontier_iff (forest : OrderedForest Node) {lower node : Node}
    (kept : keep lower) :
    lower ∈ forest.frontier keep node ↔
      forest.Ancestor lower node ∧
        ∀ other, keep other → forest.Ancestor lower other →
          other = node ∨ forest.Ancestor node other := by
  constructor
  · induction node using forest.wellFounded.induction with
    | _ node inductionHypothesis =>
        rw [frontier_eq]
        intro member
        rcases List.mem_flatMap.mp member with ⟨child, isChild, inside⟩
        by_cases childKept : keep child
        · rw [if_pos childKept, List.mem_singleton] at inside
          subst inside
          exact ⟨.single isChild, fun other _ path =>
            (forest.ancestor_iff_of_child isChild).mp path⟩
        · rw [if_neg childKept] at inside
          rcases inductionHypothesis child isChild inside with ⟨path, nearest⟩
          refine ⟨path.tail isChild, fun other otherKept otherPath => ?_⟩
          rcases nearest other otherKept otherPath with rfl | above
          · exact absurd otherKept childKept
          · exact (forest.ancestor_iff_of_child isChild).mp above
  · rintro ⟨path, nearest⟩
    induction path with
    | single isChild =>
        rw [frontier_eq]
        exact List.mem_flatMap.mpr ⟨lower, isChild, by simp [kept]⟩
    | @tail child parent path isChild inductionHypothesis =>
        have childDropped : ¬ keep child := by
          intro childKept
          rcases nearest child childKept path with rfl | above
          · exact Ancestor.irrefl forest child (.single isChild)
          · exact Ancestor.irrefl forest child (.head isChild above)
        have member := inductionHypothesis fun other otherKept otherPath => by
          rcases nearest other otherKept otherPath with rfl | above
          · exact .inr (.single isChild)
          · exact .inr (.head isChild above)
        rw [frontier_eq]
        exact List.mem_flatMap.mpr ⟨child, isChild, by simpa [childDropped] using member⟩

/-- `after` is `before` with `node` taken out and its children in its place. -/
structure Splices [DecidableEq Node] (before after : OrderedForest Node) (node : Node) :
    Prop where
  removed : after.children node = []
  spliced : ∀ other, other ≠ node → after.children other =
    (before.children other).flatMap fun child =>
      if child = node then before.children node else [child]

/-- Splicing out a node that is not kept leaves every other frontier as it was. -/
theorem Splices.frontier_eq [DecidableEq Node] {before after : OrderedForest Node}
    {node : Node} (splices : Splices before after node) (dropped : ¬ keep node)
    (other : Node) (different : other ≠ node) :
    after.frontier keep other = before.frontier keep other := by
  induction other using (before.wellFounded.transGen).induction with
  | _ other inductionHypothesis =>
      rw [OrderedForest.frontier_eq, OrderedForest.frontier_eq, splices.spliced other different,
        List.flatMap_assoc]
      -- a piece of the new frontier, once the node below it is known to be older
      have piece : ∀ lower, lower ≠ node → before.Ancestor lower other →
          (if keep lower then [lower] else after.frontier keep lower) =
            if keep lower then [lower] else before.frontier keep lower := by
        intro lower lowerDifferent below
        rw [inductionHypothesis lower below lowerDifferent]
      refine List.flatMap_congr fun child isChild => ?_
      by_cases isNode : child = node
      · subst isNode
        rw [if_pos rfl, if_neg dropped, OrderedForest.frontier_eq]
        refine List.flatMap_congr fun grandchild isGrandchild => ?_
        refine piece grandchild ?_ (.head isGrandchild (.single isChild))
        rintro rfl
        exact Ancestor.irrefl before grandchild (.single isGrandchild)
      · rw [if_neg isNode, List.flatMap_singleton]
        exact piece child isNode (.single isChild)

end OrderedForest

end Forests
