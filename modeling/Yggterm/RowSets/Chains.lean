import Yggterm.RowSets.Invariant

/-!
# The chain above a row

Each row has one head, so what is above a row is a chain: `is_hidden` and `visible_rows` walk up
it until a test holds.  A guard stops the walk, and on a forest it never stops one short.
-/

namespace Yggterm.RowSets

open HashMaps Forests

universe u

variable {Row : Type u} [DecidableEq Row]

/-- The row `hops` steps up. -/
def ancestorAt (sets : RowSets Row) (path : Row) : Nat → Option Row
  | 0 => some path
  | hops + 1 => (sets.parentOf path).bind fun head => sets.ancestorAt head hops

/-- `top` is the highest listed row at or above `path`, `hops` steps up. -/
structure IsTop (sets : RowSets Row) (order : List Row) (path top : Row) (hops : Nat) :
    Prop where
  listed : top ∈ order
  above : sets.ancestorAt path hops = some top
  highest : ∀ further, hops < further → ∀ ancestor ∈ sets.ancestorAt path further,
    ancestor ∉ order

/-- Nothing from the head of `path` to the row `hops` steps up is shut. -/
def OpenUpTo (sets : RowSets Row) (path : Row) (hops : Nat) : Prop :=
  ∀ step, 0 < step → step ≤ hops → ∀ head ∈ sets.ancestorAt path step, head ∉ sets.collapsed

theorem ancestorAt_succ {sets : RowSets Row} {path head : Row}
    (held : sets.parentOf path = some head) (hops : Nat) :
    sets.ancestorAt path (hops + 1) = sets.ancestorAt head hops := by
  rw [ancestorAt, held, Option.bind_some]

/-- A step further up: what is above the head is above the row. -/
theorem IsTop.succ {sets : RowSets Row} {order : List Row} {path head top : Row} {hops : Nat}
    (held : sets.parentOf path = some head) (isTop : sets.IsTop order head top hops) :
    sets.IsTop order path top (hops + 1) where
  listed := isTop.listed
  above := (ancestorAt_succ held hops).trans isTop.above
  highest further beyond ancestor isAncestor := by
    cases further with
    | zero => omega
    | succ further =>
        rw [ancestorAt_succ held] at isAncestor
        exact isTop.highest further (by omega) ancestor isAncestor

theorem OpenUpTo.succ_iff {sets : RowSets Row} {path head : Row}
    (held : sets.parentOf path = some head) (hops : Nat) :
    sets.OpenUpTo path (hops + 1) ↔ head ∉ sets.collapsed ∧ sets.OpenUpTo head hops := by
  constructor
  · intro isOpen
    constructor
    · apply isOpen 1 Nat.one_pos (by omega)
      rw [ancestorAt_succ held]
      rfl
    · intro step positive within other isOther
      apply isOpen (step + 1) (by omega) (by omega)
      rw [ancestorAt_succ held]
      exact isOther
  · rintro ⟨headOpen, isOpen⟩ step positive within other isOther
    cases step with
    | zero => omega
    | succ step =>
        rw [ancestorAt_succ held] at isOther
        cases step with
        | zero =>
            obtain rfl := Option.some.inj isOther
            exact headOpen
        | succ step => exact isOpen (step + 1) (by omega) (by omega) other isOther

theorem reflTransGen_of_ancestorAt {sets : RowSets Row} {path ancestor : Row} {hops : Nat}
    (above : sets.ancestorAt path hops = some ancestor) :
    Relation.ReflTransGen sets.HeldBy path ancestor := by
  induction hops generalizing path with
  | zero =>
      obtain rfl := Option.some.inj above
      exact .refl
  | succ hops inductionHypothesis =>
      obtain ⟨head, held, onward⟩ := Option.bind_eq_some_iff.mp above
      exact .head held (inductionHypothesis onward)

theorem ancestorAt_add {sets : RowSets Row} {path ancestor : Row} {hops : Nat}
    (above : sets.ancestorAt path hops = some ancestor) (further : Nat) :
    sets.ancestorAt path (hops + further) = sets.ancestorAt ancestor further := by
  induction hops generalizing path with
  | zero =>
      obtain rfl := Option.some.inj above
      rw [Nat.zero_add]
  | succ hops inductionHypothesis =>
      obtain ⟨head, held, onward⟩ := Option.bind_eq_some_iff.mp above
      rw [Nat.succ_add, ancestorAt_succ held]
      exact inductionHypothesis onward

theorem transGen_iff_ancestorAt {sets : RowSets Row} {path ancestor : Row} :
    Relation.TransGen sets.HeldBy path ancestor ↔
      ∃ hops, sets.ancestorAt path (hops + 1) = some ancestor := by
  constructor
  · intro above
    induction above using Relation.TransGen.head_induction_on with
    | single held => exact ⟨0, by rw [ancestorAt_succ held]; rfl⟩
    | head held _ inductionHypothesis =>
        obtain ⟨hops, onward⟩ := inductionHypothesis
        exact ⟨hops + 1, (ancestorAt_succ held _).trans onward⟩
  · rintro ⟨hops, above⟩
    obtain ⟨head, held, onward⟩ := Option.bind_eq_some_iff.mp above
    exact Relation.TransGen.head' held (reflTransGen_of_ancestorAt onward)

/-- No way up goes on for ever. -/
theorem WellFormed.wellFounded_up {sets : RowSets Row} (wellFormed : sets.WellFormed) :
    WellFounded fun head member => sets.HeldBy member head := by
  apply Acyclic.wellFounded ?_ sets.members.keys
  · intro head member held
    apply Finmap.mem_keys.mpr
    rw [wellFormed.mem_members_iff]
    exact List.ne_nil_of_mem (wellFormed.parent_iff.mp held)
  · intro node cycle
    exact wellFormed.acyclic node (Relation.transGen_swap.mp cycle)

theorem WellFormed.exists_isTop {sets : RowSets Row} (wellFormed : sets.WellFormed)
    (order : List Row) {path : Row} (listed : path ∈ order) :
    ∃ top hops, sets.IsTop order path top hops := by
  -- upwards, either nothing is listed any more or there is a highest listed row
  have either : ∀ path, (∃ top hops, sets.IsTop order path top hops) ∨
      ∀ hops, ∀ ancestor ∈ sets.ancestorAt path hops, ancestor ∉ order := by
    intro path
    induction path using wellFormed.wellFounded_up.induction with
    | _ path inductionHypothesis =>
        have alone : (∀ hops, ∀ ancestor ∈ sets.ancestorAt path (hops + 1), ancestor ∉ order) →
            (∃ top hops, sets.IsTop order path top hops) ∨
              ∀ hops, ∀ ancestor ∈ sets.ancestorAt path hops, ancestor ∉ order := by
          intro nothingAbove
          by_cases isListed : path ∈ order
          · refine .inl ⟨path, 0, isListed, rfl, ?_⟩
            intro further beyond
            obtain ⟨hops, rfl⟩ := Nat.exists_eq_succ_of_ne_zero beyond.ne'
            exact nothingAbove hops
          · right
            intro hops ancestor isAncestor
            cases hops with
            | zero =>
                obtain rfl := Option.some.inj isAncestor
                exact isListed
            | succ hops => exact nothingAbove hops ancestor isAncestor
        cases held : sets.parentOf path with
        | none =>
            apply alone
            intro hops ancestor isAncestor
            rw [ancestorAt, held] at isAncestor
            cases isAncestor
        | some head =>
            rcases inductionHypothesis head held with ⟨top, hops, isTop⟩ | nothing
            · exact .inl ⟨top, hops + 1, isTop.succ held⟩
            · apply alone
              intro hops
              rw [ancestorAt_succ held]
              exact nothing hops
  rcases either path with found | nothing
  · exact found
  · exact absurd listed (nothing 0 path rfl)

/-! ## The guarded walk up -/

/-- The loop of `is_hidden` and `drawn_ancestor_exists`: does the test hold of a row on the way
up?  `remaining` is how many more rows the guard lets it step past. -/
def ancestorWalkMeets (sets : RowSets Row) (test : Row → Bool) : Nat → Option Row → Bool
  | _, none => false
  | remaining, some head =>
      if test head then true
      else match remaining with
        | 0 => false
        | remaining + 1 => sets.ancestorWalkMeets test remaining (sets.parentOf head)

def ancestorMeets (sets : RowSets Row) (test : Row → Bool) (path : Row) : Bool :=
  sets.ancestorWalkMeets test sets.parent.keys.card (sets.parentOf path)

/-- Is `path` hidden by an ancestor being collapsed? -/
def isHidden (sets : RowSets Row) (path : Row) : Bool :=
  sets.ancestorMeets (fun head => head ∈ sets.collapsed) path

/-- Does any ancestor of `path` exist among the rows being drawn? -/
def drawnAncestorExists (sets : RowSets Row) (path : Row) (present : Finset Row) : Bool :=
  sets.ancestorMeets (fun head => head ∈ present) path

/-- The guard cuts no walk short: the rows still ahead lie in a set no larger than it. -/
theorem ancestorWalkMeets_eq_true {sets : RowSets Row} (acyclic : Acyclic sets.HeldBy)
    {test : Row → Bool} {path ancestor : Row} (remaining : Nat) (ahead : Finset Row)
    (bounded : ahead.card ≤ remaining)
    (contains : ∀ lower upper, Relation.ReflTransGen sets.HeldBy path lower →
      sets.HeldBy lower upper → lower ∈ ahead)
    (above : Relation.TransGen sets.HeldBy path ancestor) (meets : test ancestor = true) :
    sets.ancestorWalkMeets test remaining (sets.parentOf path) = true := by
  induction remaining generalizing ahead path with
  | zero =>
      obtain ⟨head, held, _⟩ := Relation.TransGen.head'_iff.mp above
      have present := contains path head .refl held
      rw [Finset.card_eq_zero.mp (Nat.le_zero.mp bounded)] at present
      cases present
  | succ remaining inductionHypothesis =>
      obtain ⟨head, held, onward⟩ := Relation.TransGen.head'_iff.mp above
      have isParent : sets.parentOf path = some head := held
      rw [isParent, ancestorWalkMeets]
      split
      · rfl
      · next missed =>
          rcases Relation.reflTransGen_iff_eq_or_transGen.mp onward with rfl | further
          · exact absurd meets missed
          · have present := contains path head .refl held
            apply inductionHypothesis (ahead.erase path) ?_ ?_ further
            · rw [Finset.card_erase_of_mem present]
              omega
            · intro lower upper below lowerHeld
              apply Finset.mem_erase.mpr
              refine ⟨?_, contains lower upper (below.head held) lowerHeld⟩
              rintro rfl
              exact acyclic lower (Relation.TransGen.head' held below)

theorem exists_of_ancestorWalkMeets {sets : RowSets Row} {test : Row → Bool} {remaining : Nat}
    {path : Row} (meets : sets.ancestorWalkMeets test remaining (sets.parentOf path) = true) :
    ∃ ancestor, Relation.TransGen sets.HeldBy path ancestor ∧ test ancestor = true := by
  induction remaining generalizing path with
  | zero =>
      cases isParent : sets.parentOf path with
      | none =>
          rw [isParent, ancestorWalkMeets] at meets
          cases meets
      | some head =>
          rw [isParent, ancestorWalkMeets] at meets
          split at meets
          · next found => exact ⟨head, .single isParent, found⟩
          · cases meets
  | succ remaining inductionHypothesis =>
      cases isParent : sets.parentOf path with
      | none =>
          rw [isParent, ancestorWalkMeets] at meets
          cases meets
      | some head =>
          rw [isParent, ancestorWalkMeets] at meets
          split at meets
          · next found => exact ⟨head, .single isParent, found⟩
          · obtain ⟨ancestor, above, found⟩ := inductionHypothesis meets
            exact ⟨ancestor, .head isParent above, found⟩

theorem ancestorMeets_iff {sets : RowSets Row} (acyclic : Acyclic sets.HeldBy)
    {test : Row → Bool} {path : Row} :
    sets.ancestorMeets test path = true ↔
      ∃ ancestor, Relation.TransGen sets.HeldBy path ancestor ∧ test ancestor = true := by
  constructor
  · exact exists_of_ancestorWalkMeets
  · rintro ⟨ancestor, above, meets⟩
    exact ancestorWalkMeets_eq_true acyclic _ sets.parent.keys le_rfl
      (fun _ _ _ held => WellFormed.mem_parent_keys held) above meets

theorem isHidden_iff {sets : RowSets Row} (acyclic : Acyclic sets.HeldBy) {path : Row} :
    sets.isHidden path = true ↔
      ∃ ancestor ∈ sets.collapsed, Relation.TransGen sets.HeldBy path ancestor := by
  rw [isHidden, ancestorMeets_iff acyclic]
  simp only [decide_eq_true_eq, and_comm]

/-- The head itself is asked before the guard. -/
theorem ancestorMeets_of_head {sets : RowSets Row} {test : Row → Bool} {path head : Row}
    (held : sets.parentOf path = some head) (meets : test head = true) :
    sets.ancestorMeets test path = true := by
  rw [ancestorMeets, held]
  cases sets.parent.keys.card <;> rw [ancestorWalkMeets, if_pos meets]

theorem drawnAncestorExists_iff {sets : RowSets Row} (acyclic : Acyclic sets.HeldBy)
    {path : Row} {present : Finset Row} :
    sets.drawnAncestorExists path present = true ↔
      ∃ ancestor ∈ present, Relation.TransGen sets.HeldBy path ancestor := by
  rw [drawnAncestorExists, ancestorMeets_iff acyclic]
  simp only [decide_eq_true_eq, and_comm]

end Yggterm.RowSets
