import Mathlib.Data.Finset.Card
import Mathlib.Data.Finset.Insert
import Mathlib.Data.Finset.SDiff
import Mathlib.Logic.Relation

/-!
# Breadth-first search through a finite graph

The graph may have cycles, and what a node stands for may be unknown.  The search ends because
every round takes a node off the queue, and only a node that was not seen before is put on it.
-/

universe u v

/-- A graph whose arrows lead into finitely many nodes. -/
structure Arrows (Node : Type u) where
  nodes : Finset Node
  children : Node → List Node
  children_mem : ∀ node, ∀ child ∈ children node, child ∈ nodes

namespace Arrows

variable {Node : Type u} {Item : Type v} [DecidableEq Node]

def Leads (graph : Arrows Node) (parent child : Node) : Prop := child ∈ graph.children parent

/-- The nodes already seen, those whose children are still to be read, and what was found. -/
structure Worklist (Node : Type u) (Item : Type v) where
  seen : Finset Node
  queue : List Node
  found : List Item

variable (graph : Arrows Node) (read : Node → Option Item)

/-- A child that was not seen before is read and put on the queue. -/
def visit (list : Worklist Node Item) (child : Node) : Worklist Node Item :=
  if child ∈ list.seen then list
  else
    { seen := insert child list.seen
      queue := list.queue ++ [child]
      found := list.found ++ (read child).toList }

/-- One round: the children of a node that was taken off the queue. -/
def expand (list : Worklist Node Item) (node : Node) : Worklist Node Item :=
  (graph.children node).foldl (visit read) list

/-- How many rounds are left at most. -/
def rounds (list : Worklist Node Item) : Nat :=
  (graph.nodes \ list.seen).card + list.queue.length

variable {graph read}

theorem rounds_visit {list : Worklist Node Item} {child : Node} (isNode : child ∈ graph.nodes) :
    graph.rounds (visit read list child) = graph.rounds list := by
  rw [visit]
  split
  · rfl
  · next fresh =>
      have ahead : child ∈ graph.nodes \ list.seen := Finset.mem_sdiff.mpr ⟨isNode, fresh⟩
      have fewer := Finset.card_erase_add_one ahead
      rw [rounds, rounds, Finset.sdiff_insert, List.length_append, List.length_singleton]
      omega

theorem rounds_foldl_visit {children : List Node}
    (areNodes : ∀ child ∈ children, child ∈ graph.nodes)
    (list : Worklist Node Item) :
    graph.rounds (children.foldl (visit read) list) = graph.rounds list := by
  induction children generalizing list with
  | nil => rfl
  | cons child rest inductionHypothesis =>
      obtain ⟨isNode, restNodes⟩ := List.forall_mem_cons.mp areNodes
      rw [List.foldl_cons, inductionHypothesis restNodes, rounds_visit isNode]

theorem rounds_expand_lt {list : Worklist Node Item} {node : Node} {rest : List Node}
    (next : list.queue = node :: rest) :
    graph.rounds (graph.expand read { list with queue := rest } node) < graph.rounds list := by
  rw [expand, rounds_foldl_visit (graph.children_mem node), rounds, rounds, next,
    List.length_cons]
  exact Nat.lt_succ_self _

variable (graph read)

/-- The rounds until the queue is empty. -/
def drain (list : Worklist Node Item) : List Item :=
  match _next : list.queue with
  | [] => list.found
  | node :: rest => drain (graph.expand read { list with queue := rest } node)
termination_by graph.rounds list
decreasing_by exact rounds_expand_lt _next

/-- What is found below a node. -/
def below (root : Node) : List Item := graph.drain read ⟨{root}, [root], []⟩

variable {graph read}

theorem foldl_visit (read : Node → Option Item) (list : Worklist Node Item)
    (children : List Node) :
    ∃ fresh : List Node, fresh.Nodup ∧
      (∀ node, node ∈ fresh ↔ node ∈ children ∧ node ∉ list.seen) ∧
      children.foldl (visit read) list =
        { seen := list.seen ∪ fresh.toFinset
          queue := list.queue ++ fresh
          found := list.found ++ fresh.filterMap read } := by
  induction children generalizing list with
  | nil => exact ⟨[], List.nodup_nil, by simp, by simp⟩
  | cons child rest inductionHypothesis =>
      rw [List.foldl_cons]
      obtain ⟨fresh, nodup, isFresh, result⟩ := inductionHypothesis (visit read list child)
      by_cases old : child ∈ list.seen
      · rw [visit, if_pos old] at isFresh result
        refine ⟨fresh, nodup, ?_, by rw [visit, if_pos old, result]⟩
        intro node
        rw [isFresh, List.mem_cons]
        constructor
        · exact fun found => ⟨.inr found.1, found.2⟩
        · rintro ⟨rfl | later, unseen⟩
          · exact absurd old unseen
          · exact ⟨later, unseen⟩
      · rw [visit, if_neg old] at isFresh result
        have notAgain : child ∉ fresh := fun again =>
          ((isFresh child).mp again).2 (Finset.mem_insert_self child list.seen)
        refine ⟨child :: fresh, List.nodup_cons.mpr ⟨notAgain, nodup⟩, ?_, ?_⟩
        · intro node
          by_cases same : node = child
          · simp [same, old]
          · simp [isFresh, same]
        · have sameSeen : insert child list.seen ∪ fresh.toFinset =
              list.seen ∪ (child :: fresh).toFinset := by
            rw [List.toFinset_cons, Finset.insert_union, Finset.union_insert]
          have sameFound : (read child).toList ++ fresh.filterMap read =
              (child :: fresh).filterMap read := by
            rw [List.filterMap_cons]
            cases read child with
            | none => rfl
            | some item => rfl
          rw [visit, if_neg old, result, sameSeen, List.append_assoc, List.append_assoc, sameFound,
            List.singleton_append]

/-- What holds between two rounds: a seen node is reached from the root, and it is on the queue
or its children are seen.  The nodes below the root were read in the order they were seen. -/
structure Spreads (graph : Arrows Node) (read : Node → Option Item) (root : Node)
    (list : Worklist Node Item) : Prop where
  reached : ∀ node ∈ list.seen, Relation.ReflTransGen graph.Leads root node
  closed : ∀ node ∈ list.seen, node ∈ list.queue ∨ ∀ child ∈ graph.children node, child ∈ list.seen
  queued : ∀ node ∈ list.queue, node ∈ list.seen
  read_once : ∃ order : List Node, order.Nodup ∧ root ∉ order ∧
    list.seen = insert root order.toFinset ∧ list.found = order.filterMap read

theorem spreads_start (root : Node) : Spreads graph read root ⟨{root}, [root], []⟩ where
  reached := by
    intro node member
    rw [Finset.mem_singleton.mp member]
  closed := by
    intro node member
    exact .inl (List.mem_singleton.mpr (Finset.mem_singleton.mp member))
  queued := by
    intro node member
    exact Finset.mem_singleton.mpr (List.mem_singleton.mp member)
  read_once := ⟨[], List.nodup_nil, List.not_mem_nil, rfl, rfl⟩

theorem Spreads.expand {root : Node} {list : Worklist Node Item}
    (spreads : Spreads graph read root list)
    {node : Node} {rest : List Node} (next : list.queue = node :: rest) :
    Spreads graph read root (graph.expand read { list with queue := rest } node) := by
  obtain ⟨fresh, nodup, isFresh, result⟩ :=
    foldl_visit read { list with queue := rest } (graph.children node)
  have isSeen : node ∈ list.seen := spreads.queued node (next ▸ List.mem_cons_self)
  have reachedNode := spreads.reached node isSeen
  rw [Arrows.expand, result]
  refine ⟨?_, ?_, ?_, ?_⟩
  · intro other member
    rcases Finset.mem_union.mp member with old | new
    · exact spreads.reached other old
    · exact reachedNode.tail ((isFresh other).mp (List.mem_toFinset.mp new)).1
  · intro other member
    rcases Finset.mem_union.mp member with old | new
    · by_cases here : other = node
      · right
        intro child isChild
        rw [here] at isChild
        by_cases seen : child ∈ list.seen
        · exact Finset.mem_union_left _ seen
        · apply Finset.mem_union_right
          exact List.mem_toFinset.mpr ((isFresh child).mpr ⟨isChild, seen⟩)
      · rcases spreads.closed other old with waits | done
        · rw [next] at waits
          exact .inl (List.mem_append_left _ (List.mem_of_ne_of_mem here waits))
        · exact .inr fun child isChild => Finset.mem_union_left _ (done child isChild)
    · exact .inl (List.mem_append_right _ (List.mem_toFinset.mp new))
  · intro other member
    rcases List.mem_append.mp member with waits | new
    · exact Finset.mem_union_left _ (spreads.queued other (next ▸ List.mem_cons_of_mem node waits))
    · exact Finset.mem_union_right _ (List.mem_toFinset.mpr new)
  · obtain ⟨order, orderNodup, notRoot, isOrder, isFound⟩ := spreads.read_once
    have unseen : ∀ other ∈ fresh, other ∉ insert root order.toFinset :=
      fun other member => isOrder ▸ ((isFresh other).mp member).2
    refine ⟨order ++ fresh, ?_, ?_, ?_, ?_⟩
    · refine List.nodup_append.mpr ⟨orderNodup, nodup, ?_⟩
      rintro other old new isNew rfl
      exact unseen other isNew (Finset.mem_insert_of_mem (List.mem_toFinset.mpr old))
    · intro member
      rcases List.mem_append.mp member with old | new
      · exact notRoot old
      · exact unseen root new (Finset.mem_insert_self root _)
    · change list.seen ∪ fresh.toFinset = insert root (order ++ fresh).toFinset
      rw [isOrder, List.toFinset_append, Finset.insert_union]
    · change list.found ++ fresh.filterMap read = (order ++ fresh).filterMap read
      rw [isFound, List.filterMap_append]

/-- With an empty queue the seen nodes are those that are reached. -/
theorem Spreads.exhausted {root : Node} {list : Worklist Node Item}
    (spreads : Spreads graph read root list) (done : list.queue = []) :
    ∃ order : List Node, order.Nodup ∧
      (∀ node, node ∈ order ↔ node ≠ root ∧ Relation.TransGen graph.Leads root node) ∧
      list.found = order.filterMap read := by
  obtain ⟨order, nodup, notRoot, isOrder, isFound⟩ := spreads.read_once
  have rootSeen : root ∈ list.seen := isOrder ▸ Finset.mem_insert_self root _
  have seen : ∀ node, Relation.TransGen graph.Leads root node → node ∈ list.seen := by
    intro node path
    induction path with
    | single arrow =>
        rcases spreads.closed root rootSeen with waits | closed
        · exact absurd waits (done ▸ List.not_mem_nil)
        · exact closed _ arrow
    | tail _ arrow inductionHypothesis =>
        rcases spreads.closed _ inductionHypothesis with waits | closed
        · exact absurd waits (done ▸ List.not_mem_nil)
        · exact closed _ arrow
  refine ⟨order, nodup, ?_, isFound⟩
  intro node
  constructor
  · intro member
    have different : node ≠ root := fun same => notRoot (same ▸ member)
    have isSeen : node ∈ list.seen :=
      isOrder ▸ Finset.mem_insert_of_mem (List.mem_toFinset.mpr member)
    rcases Relation.reflTransGen_iff_eq_or_transGen.mp (spreads.reached node isSeen) with
      same | path
    · exact absurd same different
    · exact ⟨different, path⟩
  · rintro ⟨different, path⟩
    have isSeen := seen node path
    rw [isOrder] at isSeen
    rcases Finset.mem_insert.mp isSeen with same | member
    · exact absurd same different
    · exact List.mem_toFinset.mp member

theorem Spreads.drain {root : Node} {list : Worklist Node Item}
    (spreads : Spreads graph read root list) :
    ∃ order : List Node, order.Nodup ∧
      (∀ node, node ∈ order ↔ node ≠ root ∧ Relation.TransGen graph.Leads root node) ∧
      graph.drain read list = order.filterMap read := by
  induction list using drain.induct graph read with
  | case1 list done =>
      rw [Arrows.drain, done]
      exact spreads.exhausted done
  | case2 list node rest next inductionHypothesis =>
      rw [Arrows.drain, next]
      exact inductionHypothesis (spreads.expand next)

/-- The search finds what is reached from the root, each node once, and not the root. -/
theorem exists_below_eq (graph : Arrows Node) (read : Node → Option Item) (root : Node) :
    ∃ order : List Node, order.Nodup ∧
      (∀ node, node ∈ order ↔ node ≠ root ∧ Relation.TransGen graph.Leads root node) ∧
      graph.below read root = order.filterMap read :=
  (spreads_start root).drain

end Arrows
