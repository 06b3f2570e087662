import Mathlib.Data.List.Nodup

/-!
# Turns of a walk

A walk goes through items and keeps a state.  Each item has its turn in the state that the items
before it left; two walks over the same items are compared turn by turn.
-/

namespace Turns

universe u v w x

variable {State : Type u} {Other : Type v} {Item : Type w}

/-- The items with the states in which they have their turn. -/
def turns (step : State → Item → State) : State → List Item → List (State × Item)
  | _, [] => []
  | state, item :: rest => (state, item) :: turns step (step state item) rest

variable {step : State → Item → State}

theorem exists_of_mem_turns {start : State} {items : List Item} {turn : State × Item}
    (member : turn ∈ turns step start items) :
    ∃ front back, items = front ++ turn.2 :: back ∧ turn.1 = front.foldl step start := by
  induction items generalizing start with
  | nil => cases member
  | cons item rest inductionHypothesis =>
      rcases List.mem_cons.mp member with rfl | later
      · exact ⟨[], rest, rfl, rfl⟩
      · obtain ⟨front, back, rfl, isState⟩ := inductionHypothesis later
        exact ⟨item :: front, back, rfl, isState⟩

theorem mem_of_mem_turns {start : State} {items : List Item} {turn : State × Item}
    (member : turn ∈ turns step start items) : turn.2 ∈ items := by
  obtain ⟨front, back, rfl, _⟩ := exists_of_mem_turns member
  exact List.mem_append_right _ List.mem_cons_self

/-- Where the items are distinct, an item has one turn. -/
theorem eq_of_mem_turns {start : State} {items : List Item} (distinct : items.Nodup)
    {turn other : State × Item} (member : turn ∈ turns step start items)
    (otherMember : other ∈ turns step start items) (same : turn.2 = other.2) : turn = other := by
  obtain ⟨front, back, isItems, isState⟩ := exists_of_mem_turns member
  obtain ⟨front', back', isItems', isState'⟩ := exists_of_mem_turns otherMember
  rw [isItems, ← same] at isItems'
  have distinctFirst := isItems ▸ distinct
  obtain ⟨_, notBehind, apart⟩ := List.nodup_append.mp distinctFirst
  have notBefore : turn.2 ∉ front := fun inFront =>
    apart _ inFront _ List.mem_cons_self rfl
  obtain ⟨sameFront, _⟩ := (List.append_cons_inj_of_notMem notBefore
    (List.nodup_cons.mp notBehind).1).mp isItems'
  apply Prod.ext
  · rw [isState, isState', sameFront]
  · exact same

/-- Two walks stay related, and every turn of the first one has a turn of the other beside it, up to
the first turn that is not good. -/
theorem lockstep {other : Other → Item → Other} {related : State → Other → Prop}
    (good : State × Item → Prop) {start : State} {otherStart : Other} {items : List Item}
    (begins : related start otherStart)
    (keeps : ∀ turn ∈ turns step start items, good turn → ∀ state, related turn.1 state →
      related (step turn.1 turn.2) (other state turn.2)) :
    (related (items.foldl step start) (items.foldl other otherStart) ∧
      ∀ turn ∈ turns step start items, good turn ∧ ∃ state, related turn.1 state ∧
        (state, turn.2) ∈ turns other otherStart items) ∨
      ∃ turn ∈ turns step start items, ¬ good turn ∧ ∃ state, related turn.1 state ∧
        (state, turn.2) ∈ turns other otherStart items := by
  induction items generalizing start otherStart with
  | nil => exact .inl ⟨begins, nofun⟩
  | cons item rest inductionHypothesis =>
      obtain ⟨here, later⟩ := List.forall_mem_cons.mp keeps
      by_cases isGood : good (start, item)
      · rcases inductionHypothesis (here isGood otherStart begins) later with
          ⟨ends, matched⟩ | ⟨turn, member, isBad, state, isRelated, inTurns⟩
        · refine .inl ⟨ends, List.forall_mem_cons.mpr
            ⟨⟨isGood, otherStart, begins, List.mem_cons_self⟩, fun turn member => ?_⟩⟩
          obtain ⟨turnGood, state, isRelated, inTurns⟩ := matched turn member
          exact ⟨turnGood, state, isRelated, List.mem_cons_of_mem _ inTurns⟩
        · exact .inr ⟨turn, List.mem_cons_of_mem _ member, isBad, state, isRelated,
            List.mem_cons_of_mem _ inTurns⟩
      · exact .inr ⟨(start, item), List.mem_cons_self, isGood, otherStart, begins,
          List.mem_cons_self⟩

/-! ## Walks in batches -/

section Batches

variable {Key : Type x} {batch : State → Key → List Item}

/-- A key stands for the items that it has when its turn comes. -/
def batchStep (step : State → Item → State) (batch : State → Key → List Item) (state : State)
    (key : Key) : State :=
  (batch state key).foldl step state

def batchTurns (step : State → Item → State) (batch : State → Key → List Item) (start : State)
    (keys : List Key) : List (State × Item) :=
  (turns (batchStep step batch) start keys).flatMap fun turn =>
    turns step turn.1 (batch turn.1 turn.2)

/-- Where the items tell their key, an item has one turn. -/
theorem eq_of_mem_batchTurns {start : State} {keys : List Key} (distinct : keys.Nodup)
    (distinctItems : ∀ state, ∀ key ∈ keys, (batch state key).Nodup)
    (tellsKey : ∀ state key other otherKey item, item ∈ batch state key →
      item ∈ batch other otherKey → key = otherKey)
    {turn other : State × Item} (member : turn ∈ batchTurns step batch start keys)
    (otherMember : other ∈ batchTurns step batch start keys) (same : turn.2 = other.2) :
    turn = other := by
  obtain ⟨outer, isOuter, inner⟩ := List.mem_flatMap.mp member
  obtain ⟨outer', isOuter', inner'⟩ := List.mem_flatMap.mp otherMember
  have sameKey : outer.2 = outer'.2 :=
    tellsKey _ _ _ _ turn.2 (mem_of_mem_turns inner) (same ▸ mem_of_mem_turns inner')
  obtain rfl : outer = outer' := eq_of_mem_turns distinct isOuter isOuter' sameKey
  exact eq_of_mem_turns (distinctItems _ _ (mem_of_mem_turns isOuter)) inner inner' same

/-- `lockstep` for walks in batches, where related states have the same batches. -/
theorem batch_lockstep {other : Other → Item → Other} {otherBatch : Other → Key → List Item}
    {related : State → Other → Prop} (good : State × Item → Prop) {start : State}
    {otherStart : Other} {keys : List Key} (begins : related start otherStart)
    (sameBatch : ∀ state other key, related state other → batch state key = otherBatch other key)
    (keeps : ∀ turn ∈ batchTurns step batch start keys, good turn → ∀ state, related turn.1 state →
      related (step turn.1 turn.2) (other state turn.2)) :
    (related (keys.foldl (batchStep step batch) start)
        (keys.foldl (batchStep other otherBatch) otherStart) ∧
      ∀ turn ∈ batchTurns step batch start keys, good turn ∧ ∃ state, related turn.1 state ∧
        (state, turn.2) ∈ batchTurns other otherBatch otherStart keys) ∨
      ∃ turn ∈ batchTurns step batch start keys, ¬ good turn ∧ ∃ state, related turn.1 state ∧
        (state, turn.2) ∈ batchTurns other otherBatch otherStart keys := by
  induction keys generalizing start otherStart with
  | nil => exact .inl ⟨begins, nofun⟩
  | cons key rest inductionHypothesis =>
      have inFront : ∀ turn ∈ turns step start (batch start key),
          turn ∈ batchTurns step batch start (key :: rest) :=
        fun turn member => List.mem_append_left _ member
      have inRest : ∀ turn ∈ batchTurns step batch (batchStep step batch start key) rest,
          turn ∈ batchTurns step batch start (key :: rest) :=
        fun turn member => List.mem_append_right _ member
      have otherFront : ∀ turn ∈ turns other otherStart (otherBatch otherStart key),
          turn ∈ batchTurns other otherBatch otherStart (key :: rest) :=
        fun turn member => List.mem_append_left _ member
      have otherRest : ∀ turn ∈ batchTurns other otherBatch
          (batchStep other otherBatch otherStart key) rest,
          turn ∈ batchTurns other otherBatch otherStart (key :: rest) :=
        fun turn member => List.mem_append_right _ member
      rcases lockstep good begins fun turn member => keeps turn (inFront turn member) with
        ⟨ends, matched⟩ | ⟨turn, member, isBad, state, isRelated, inTurns⟩
      · have stepped : related (batchStep step batch start key)
            (batchStep other otherBatch otherStart key) := by
          rw [batchStep, batchStep, ← sameBatch _ _ key begins]
          exact ends
        rcases inductionHypothesis stepped fun turn member => keeps turn (inRest turn member) with
          ⟨finish, restMatched⟩ | ⟨turn, member, isBad, state, isRelated, inTurns⟩
        · refine .inl ⟨finish, fun turn member => ?_⟩
          rcases List.mem_append.mp member with front | behind
          · obtain ⟨isGood, state, isRelated, inTurns⟩ := matched turn front
            rw [sameBatch _ _ key begins] at inTurns
            exact ⟨isGood, state, isRelated, otherFront _ inTurns⟩
          · obtain ⟨isGood, state, isRelated, inTurns⟩ := restMatched turn behind
            exact ⟨isGood, state, isRelated, otherRest _ inTurns⟩
        · exact .inr ⟨turn, inRest turn member, isBad, state, isRelated, otherRest _ inTurns⟩
      · refine .inr ⟨turn, inFront turn member, isBad, state, isRelated, otherFront _ ?_⟩
        rw [← sameBatch _ _ key begins]
        exact inTurns

end Batches

end Turns
