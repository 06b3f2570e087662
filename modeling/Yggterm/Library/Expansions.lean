import Mathlib.Data.List.Infix
import Yggterm.Library.OrderedForest

/-!
# Expansions of an ordered forest

A forest some of whose nodes are shut is drawn from a node downwards: the node, and below it
its children in order, unless it is shut.  What is drawn is told by the way up: a node is drawn
exactly when nothing above it is shut, at as many levels as there are hops.
-/

namespace Forests.OrderedForest

universe u

variable {Node : Type u} (forest : OrderedForest Node) (shut : Node → Prop)

/-- The way from `lower` up to `upper` in `hops` steps, past nodes that are not shut. -/
inductive OpenPath : Nat → Node → Node → Prop where
  | here (node : Node) : OpenPath 0 node node
  | up {hops : Nat} {lower parent upper : Node} (isChild : lower ∈ forest.children parent)
      (isOpen : ¬ shut parent) (rest : OpenPath hops parent upper) :
      OpenPath (hops + 1) lower upper

variable {forest shut}

theorem OpenPath.down {hops : Nat} {lower child parent : Node}
    (path : forest.OpenPath shut hops lower child) (isChild : child ∈ forest.children parent)
    (isOpen : ¬ shut parent) : forest.OpenPath shut (hops + 1) lower parent := by
  induction path with
  | here node => exact .up isChild isOpen (.here _)
  | up isLower lowerOpen _ inductionHypothesis =>
      exact .up isLower lowerOpen (inductionHypothesis isChild)

/-- A way that is not empty enters through a child. -/
theorem OpenPath.last {hops : Nat} {lower upper : Node}
    (path : forest.OpenPath shut (hops + 1) lower upper) :
    ¬ shut upper ∧ ∃ child ∈ forest.children upper, forest.OpenPath shut hops lower child := by
  induction hops generalizing lower with
  | zero =>
      cases path with
      | up isChild isOpen rest =>
          cases rest
          exact ⟨isOpen, lower, isChild, .here lower⟩
  | succ hops inductionHypothesis =>
      cases path with
      | up isChild isOpen rest =>
          obtain ⟨upperOpen, child, isUpper, inside⟩ := inductionHypothesis rest
          exact ⟨upperOpen, child, isUpper, .up isChild isOpen inside⟩

/-- `lower` is `node` or below it. -/
def AtOrBelow (forest : OrderedForest Node) (lower node : Node) : Prop :=
  Relation.ReflTransGen (fun child parent => child ∈ forest.children parent) lower node

theorem OpenPath.atOrBelow {hops : Nat} {lower upper : Node}
    (path : forest.OpenPath shut hops lower upper) : forest.AtOrBelow lower upper := by
  induction path with
  | here node => exact .refl
  | up isChild _ _ inductionHypothesis => exact .head isChild inductionHypothesis

theorem atOrBelow_iff {lower node : Node} :
    forest.AtOrBelow lower node ↔ lower = node ∨ forest.Ancestor lower node := by
  rw [AtOrBelow, Relation.reflTransGen_iff_eq_or_transGen, eq_comm]
  rfl

/-- Of two nodes above one node, one is above the other. -/
theorem AtOrBelow.linear {lower first second : Node} (belowFirst : forest.AtOrBelow lower first)
    (belowSecond : forest.AtOrBelow lower second) :
    forest.AtOrBelow first second ∨ forest.AtOrBelow second first := by
  induction belowFirst using Relation.ReflTransGen.head_induction_on with
  | refl => exact .inl belowSecond
  | head isChild rest inductionHypothesis =>
      rcases Relation.ReflTransGen.cases_head belowSecond with rfl | ⟨parent, isOther, onward⟩
      · exact .inr (.head isChild rest)
      · obtain rfl := forest.oneParent isChild isOther
        exact inductionHypothesis onward

/-- Below two children of one node there is no node in common. -/
theorem eq_of_atOrBelow_children {lower first second parent : Node}
    (isFirst : first ∈ forest.children parent) (isSecond : second ∈ forest.children parent)
    (belowFirst : forest.AtOrBelow lower first) (belowSecond : forest.AtOrBelow lower second) :
    first = second := by
  have apart : ∀ {one other}, one ∈ forest.children parent → other ∈ forest.children parent →
      forest.AtOrBelow one other → one = other := by
    intro one other isOne isOther below
    rcases atOrBelow_iff.mp below with same | above
    · exact same
    · rcases (forest.ancestor_iff_of_child isOne).mp above with rfl | further
      · exact absurd (.single isOther) (Ancestor.irrefl forest other)
      · exact absurd (further.head isOther) (Ancestor.irrefl forest other)
  rcases belowFirst.linear belowSecond with below | below
  · exact apart isFirst isSecond below
  · exact (apart isSecond isFirst below).symm

/-! ## What is drawn -/

variable (forest shut) [DecidablePred shut]

/-- A node and what is drawn below it, each with its level. -/
def expansion (node : Node) (level : Nat) : List (Node × Nat) :=
  (node, level) ::
    if shut node then []
    else (forest.children node).attach.flatMap fun child => expansion child.1 (level + 1)
termination_by forest.wellFounded.wrap node
decreasing_by exact child.2

/-- What is drawn below a node. -/
def interior (node : Node) (level : Nat) : List (Node × Nat) :=
  if shut node then []
  else (forest.children node).flatMap fun child => forest.expansion shut child (level + 1)

theorem expansion_eq (node : Node) (level : Nat) :
    forest.expansion shut node level = (node, level) :: forest.interior shut node level := by
  rw [expansion, interior]
  conv_rhs => rw [← List.attach_map_subtype_val (forest.children node)]
  rw [List.flatMap_map]

variable {forest shut}

theorem mem_expansion_iff {lower node : Node} {level depth : Nat} :
    (lower, depth) ∈ forest.expansion shut node level ↔
      ∃ hops, depth = level + hops ∧ forest.OpenPath shut hops lower node := by
  induction node using forest.wellFounded.induction generalizing level with
  | _ node inductionHypothesis =>
      rw [expansion_eq, List.mem_cons, interior]
      constructor
      · rintro (same | inside)
        · obtain ⟨rfl, rfl⟩ := Prod.mk.inj same
          exact ⟨0, rfl, .here lower⟩
        · split at inside
          · cases inside
          · next isOpen =>
              obtain ⟨child, isChild, below⟩ := List.mem_flatMap.mp inside
              obtain ⟨hops, rfl, path⟩ := (inductionHypothesis child isChild).mp below
              exact ⟨hops + 1, by omega, path.down isChild isOpen⟩
      · rintro ⟨hops, rfl, path⟩
        cases hops with
        | zero =>
            cases path
            exact .inl rfl
        | succ hops =>
            right
            obtain ⟨isOpen, child, isChild, below⟩ := path.last
            rw [if_neg isOpen]
            apply List.mem_flatMap.mpr
            exact ⟨child, isChild, (inductionHypothesis child isChild).mpr
              ⟨hops, by omega, below⟩⟩

theorem atOrBelow_of_mem_expansion {node : Node} {level : Nat} {entry : Node × Nat}
    (inside : entry ∈ forest.expansion shut node level) : forest.AtOrBelow entry.1 node := by
  obtain ⟨_, _, path⟩ := mem_expansion_iff.mp inside
  exact path.atOrBelow

theorem ancestor_of_mem_interior {node : Node} {level : Nat} {entry : Node × Nat}
    (inside : entry ∈ forest.interior shut node level) : forest.Ancestor entry.1 node := by
  rw [interior] at inside
  split at inside
  · cases inside
  · obtain ⟨child, isChild, below⟩ := List.mem_flatMap.mp inside
    exact Relation.TransGen.tail' (atOrBelow_of_mem_expansion below) isChild

/-- Nothing is drawn twice. -/
theorem nodup_expansion (distinct : ∀ node, (forest.children node).Nodup) (node : Node)
    (level : Nat) : ((forest.expansion shut node level).map Prod.fst).Nodup := by
  induction node using forest.wellFounded.induction generalizing level with
  | _ node inductionHypothesis =>
      rw [expansion_eq, List.map_cons, List.nodup_cons]
      constructor
      · intro inside
        obtain ⟨entry, isEntry, isNode⟩ := List.mem_map.mp inside
        have above := ancestor_of_mem_interior isEntry
        rw [isNode] at above
        exact Ancestor.irrefl forest node above
      · rw [interior]
        split
        · exact List.nodup_nil
        · rw [List.map_flatMap, List.nodup_flatMap]
          constructor
          · intro child isChild
            exact inductionHypothesis child isChild (level + 1)
          · apply (distinct node).pairwise_of_forall_ne
            intro first isFirst second isSecond different lower inFirst inSecond
            obtain ⟨_, firstEntry, rfl⟩ := List.mem_map.mp inFirst
            obtain ⟨_, secondEntry, same⟩ := List.mem_map.mp inSecond
            apply different
            apply eq_of_atOrBelow_children isFirst isSecond
              (atOrBelow_of_mem_expansion firstEntry)
            rw [← same]
            exact atOrBelow_of_mem_expansion secondEntry

/-- What is drawn from a node stands together in all that is drawn from above it. -/
theorem expansion_infix {lower node : Node} {level depth : Nat}
    (inside : (lower, depth) ∈ forest.expansion shut node level) :
    forest.expansion shut lower depth <:+: forest.expansion shut node level := by
  induction node using forest.wellFounded.induction generalizing level with
  | _ node inductionHypothesis =>
      have drawn := inside
      rw [expansion_eq, List.mem_cons] at drawn
      rcases drawn with same | below
      · obtain ⟨rfl, rfl⟩ := Prod.mk.inj same
        exact List.infix_rfl
      · rw [interior] at below
        split at below
        · cases below
        · next isOpen =>
            obtain ⟨child, isChild, inChild⟩ := List.mem_flatMap.mp below
            have inner := inductionHypothesis child isChild inChild
            obtain ⟨front, back, parts⟩ := List.append_of_mem isChild
            rw [expansion_eq forest shut node, interior, if_neg isOpen, parts, List.flatMap_append,
              List.flatMap_cons]
            apply List.infix_cons
            exact inner.trans ⟨_, _, List.append_assoc _ _ _⟩

/-- A child is drawn after its parent, with only nodes below the parent between them. -/
theorem expansion_split {child parent : Node} (isChild : child ∈ forest.children parent)
    (isOpen : ¬ shut parent) (level : Nat) :
    ∃ between behind, forest.expansion shut parent level =
        (parent, level) :: between ++ (child, level + 1) :: behind ∧
      ∀ entry ∈ between, forest.Ancestor entry.1 parent := by
  obtain ⟨front, back, parts⟩ := List.append_of_mem isChild
  refine ⟨front.flatMap fun sibling => forest.expansion shut sibling (level + 1),
    forest.interior shut child (level + 1) ++
      back.flatMap fun sibling => forest.expansion shut sibling (level + 1), ?_, ?_⟩
  · rw [expansion_eq, interior, if_neg isOpen, parts, List.flatMap_append, List.flatMap_cons,
      expansion_eq forest shut child, List.cons_append, List.cons_append]
  · intro entry inside
    obtain ⟨sibling, isSibling, below⟩ := List.mem_flatMap.mp inside
    have inFront : sibling ∈ forest.children parent := by
      rw [parts]
      exact List.mem_append_left _ isSibling
    exact Relation.TransGen.tail' (atOrBelow_of_mem_expansion below) inFront

end Forests.OrderedForest
