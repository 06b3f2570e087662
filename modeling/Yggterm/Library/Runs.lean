import Mathlib.Data.List.Basic
import Mathlib.Data.List.Induction

/-!
# Runs of a deterministic machine

A machine is a step function; whatever the environment decides (which thread
moves, which argument is passed) is part of the action.  `Always` and `Guarded`
read a property of states and a condition on steps along one run.
-/

namespace Runs

universe u v

variable {State : Type u} {Action : Type v}

/-- The state reached by performing the actions in order. -/
def run (step : State → Action → State) (start : State) (actions : List Action) : State :=
  actions.foldl step start

@[simp]
theorem run_nil (step : State → Action → State) (start : State) :
    run step start [] = start := rfl

@[simp]
theorem run_cons (step : State → Action → State) (start : State)
    (action : Action) (rest : List Action) :
    run step start (action :: rest) = run step (step start action) rest := rfl

theorem run_append (step : State → Action → State) (start : State)
    (first second : List Action) :
    run step start (first ++ second) = run step (run step start first) second :=
  List.foldl_append

/-- A property that every step keeps holds at the end of every run. -/
theorem run_invariant {step : State → Action → State} {invariant : State → Prop}
    (preserved : ∀ state action, invariant state → invariant (step state action))
    {start : State} (initially : invariant start) (actions : List Action) :
    invariant (run step start actions) := by
  induction actions generalizing start with
  | nil => exact initially
  | cons action rest inductionHypothesis =>
      exact inductionHypothesis (preserved start action initially)

/-- The property holds in every state the run passes through. -/
def Always (step : State → Action → State) (property : State → Prop) :
    State → List Action → Prop
  | state, [] => property state
  | state, action :: rest => property state ∧ Always step property (step state action) rest

/-- Every step of the run meets the condition in the state it is taken from. -/
def Guarded (step : State → Action → State) (guard : State → Action → Prop) :
    State → List Action → Prop
  | _, [] => True
  | state, action :: rest => guard state action ∧ Guarded step guard (step state action) rest

instance decidableGuarded {step : State → Action → State} {guard : State → Action → Prop}
    [∀ state action, Decidable (guard state action)] :
    ∀ start actions, Decidable (Guarded step guard start actions)
  | _, [] => inferInstanceAs (Decidable True)
  | state, action :: rest =>
      have := @decidableGuarded step guard _ (step state action) rest
      inferInstanceAs (Decidable (guard state action ∧ Guarded step guard (step state action) rest))

theorem Guarded.mono {step : State → Action → State} {guard other : State → Action → Prop}
    (weaker : ∀ state action, guard state action → other state action) {start : State}
    {actions : List Action} (guarded : Guarded step guard start actions) :
    Guarded step other start actions := by
  induction actions generalizing start with
  | nil => trivial
  | cons action rest inductionHypothesis =>
      exact ⟨weaker start action guarded.1, inductionHypothesis guarded.2⟩

/-- Actions that meet the condition in every state. -/
theorem guarded_of_forall {step : State → Action → State} {guard : State → Action → Prop}
    {actions : List Action} (meets : ∀ action ∈ actions, ∀ state, guard state action)
    (start : State) : Guarded step guard start actions := by
  induction actions generalizing start with
  | nil => trivial
  | cons action rest inductionHypothesis =>
      refine ⟨meets action List.mem_cons_self start, inductionHypothesis ?_ _⟩
      exact fun other member => meets other (List.mem_cons_of_mem _ member)

theorem guarded_append {step : State → Action → State} {guard : State → Action → Prop}
    {start : State} {first second : List Action} :
    Guarded step guard start (first ++ second) ↔
      Guarded step guard start first ∧ Guarded step guard (run step start first) second := by
  induction first generalizing start with
  | nil => simp [Guarded]
  | cons action rest inductionHypothesis =>
      rw [List.cons_append, Guarded, inductionHypothesis, Guarded, run_cons, and_assoc]

/-- The rule for guarded runs: an invariant that guarded steps keep, and that
implies the property, gives the property in every state of the run. -/
theorem always_of_guarded {step : State → Action → State} {guard : State → Action → Prop}
    {invariant property : State → Prop}
    (preserved : ∀ state action, invariant state → guard state action →
      invariant (step state action))
    (implies : ∀ state, invariant state → property state)
    {start : State} (initially : invariant start) {actions : List Action}
    (guarded : Guarded step guard start actions) :
    Always step property start actions := by
  induction actions generalizing start with
  | nil => exact implies start initially
  | cons action rest inductionHypothesis =>
      refine ⟨implies start initially, ?_⟩
      exact inductionHypothesis (preserved start action initially guarded.1) guarded.2

theorem Always.head {step : State → Action → State} {property : State → Prop}
    {state : State} {actions : List Action}
    (always : Always step property state actions) : property state := by
  cases actions with
  | nil => exact always
  | cons action rest => exact always.1

/-- A property that fails at the end of a run does not hold along it. -/
theorem not_always_of_last {step : State → Action → State} {property : State → Prop} {start : State}
    {actions : List Action} (fails : ¬ property (run step start actions)) :
    ¬ Always step property start actions := by
  induction actions generalizing start with
  | nil => exact fails
  | cons action rest inductionHypothesis => exact fun always => inductionHypothesis fails always.2

/-- When a step that misses the condition breaks the property at once, the property
holds along a run exactly when all its steps meet the condition. -/
theorem always_iff_guarded_of_breaks {step : State → Action → State}
    {guard : State → Action → Prop} {invariant property : State → Prop}
    (preserved : ∀ state action, invariant state → guard state action →
      invariant (step state action))
    (implies : ∀ state, invariant state → property state)
    (breaks : ∀ state action, invariant state → ¬ guard state action →
      ¬ property (step state action))
    {start : State} (initially : invariant start) (actions : List Action) :
    Always step property start actions ↔ Guarded step guard start actions := by
  constructor
  · intro always
    induction actions generalizing start with
    | nil => trivial
    | cons action rest inductionHypothesis =>
        have guarded : guard start action := by
          apply Classical.byContradiction
          intro missed
          exact breaks start action initially missed always.2.head
        exact ⟨guarded, inductionHypothesis (preserved start action initially guarded) always.2⟩
  · exact always_of_guarded preserved implies initially

/-- When the condition says exactly which steps keep an inductive property, the
property holds along a run exactly when all its steps meet the condition.  The
invariant may hold more than the property, so long as it never breaks. -/
theorem always_iff_guarded {step : State → Action → State} {guard : State → Action → Prop}
    {invariant property : State → Prop}
    (preserved : ∀ state action, invariant state → invariant (step state action))
    (exact_step : ∀ state action, invariant state → property state →
      (property (step state action) ↔ guard state action))
    {start : State} (initially : invariant start) (holds : property start)
    (actions : List Action) :
    Always step property start actions ↔ Guarded step guard start actions := by
  refine always_iff_guarded_of_breaks (?_ : ∀ state action, invariant state ∧ property state → _)
    (fun state => And.right) ?_ ⟨initially, holds⟩ actions
  · rintro state action ⟨before, held⟩ guarded
    exact ⟨preserved state action before, (exact_step state action before held).mpr guarded⟩
  · rintro state action ⟨before, held⟩ missed
    exact mt (exact_step state action before held).mp missed

end Runs

/-! ## Sightings kept in a ledger

A machine looks at its keys in rounds and keeps, for a key under watch, the time of
the round that first sighted it.  When a round keeps a sighting only by seeing the key
again, a sighting in the ledger stands for an unbroken watch since its time. -/

namespace Watches

universe u v w

variable {State : Type u} {Round : Type v} {Key : Type w}
variable {step : State → Round → State} {time : Round → Nat}
variable {sighted : State → Key → Nat → Prop} {begins : State → Round → Key → Prop}
variable {sees : Round → Key → Prop}

/-- What one round does to the ledger: a sighting in it afterwards is of a key the
round saw, and was either there before or is the round's own. -/
def Renews (step : State → Round → State) (time : Round → Nat)
    (sighted : State → Key → Nat → Prop) (begins : State → Round → Key → Prop)
    (sees : Round → Key → Prop) (round : Round) : Prop :=
  ∀ state key since, sighted (step state round) key since →
    sees round key ∧ (sighted state key since ∨ begins state round key ∧ since = time round)

/-- A sighting goes back to the round that began it, and every round from that one on
has seen the key. -/
theorem exists_begins_of_sighted {start : State} (fresh : ∀ key since, ¬ sighted start key since)
    {rounds : List Round}
    (renews : ∀ round ∈ rounds, Renews step time sighted begins sees round)
    {key : Key} {since : Nat} (held : sighted (Runs.run step start rounds) key since) :
    ∃ before first after, rounds = before ++ first :: after ∧ time first = since ∧
      begins (Runs.run step start before) first key ∧
      ∀ round ∈ first :: after, sees round key := by
  induction rounds using List.reverseRecOn with
  | nil => exact absurd held (fresh key since)
  | append_singleton rounds last inductionHypothesis =>
      rw [Runs.run_append, Runs.run_cons, Runs.run_nil] at held
      obtain ⟨seen, kept | ⟨began, isTime⟩⟩ := renews last (by simp) _ key since held
      · obtain ⟨before, first, after, isRounds, isTime, began, watched⟩ :=
          inductionHypothesis (fun round member => renews round (by simp [member])) kept
        refine ⟨before, first, after ++ [last], by simp [isRounds], isTime, began, ?_⟩
        intro round member
        rw [← List.cons_append, List.mem_append, List.mem_singleton] at member
        rcases member with earlier | rfl
        · exact watched round earlier
        · exact seen
      · refine ⟨rounds, last, [], rfl, isTime.symm, began, ?_⟩
        intro round member
        rw [List.mem_singleton.mp member]
        exact seen

end Watches
