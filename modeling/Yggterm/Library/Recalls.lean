import Mathlib.Logic.Function.Basic
import Yggterm.Library.Runs

/-!
# Values that are remembered

In each round some names are given values, and the value that a name was given last is known
in the next round.  The names keep their values exactly where every round gives what is known,
and no name that was given two values in one round comes back.
-/

namespace Recalls

open Runs

variable {Name Value : Type*}

/-- The names of a round with the values they are given. -/
abbrev Round (Name Value : Type*) := List (Name × Value)

/-- A name has one value in both rounds. -/
def Agree (earlier later : Round Name Value) : Prop :=
  ∀ entry ∈ earlier, ∀ other ∈ later, entry.1 = other.1 → other.2 = entry.2

/-- No name that the earlier round gave two values is in the later one. -/
def Settled (earlier later : Round Name Value) : Prop :=
  ∀ entry ∈ earlier, ∀ other ∈ earlier, entry.1 = other.1 → entry.2 ≠ other.2 →
    ∀ last ∈ later, last.1 ≠ entry.1

/-- The round gives what is known. -/
def Honors (known : Name → Option Value) (round : Round Name Value) : Prop :=
  ∀ entry ∈ round, ∀ value, known entry.1 = some value → entry.2 = value

section Learn

variable [DecidableEq Name]

/-- What is known after a round. -/
def learn (known : Name → Option Value) (round : Round Name Value) : Name → Option Value :=
  round.foldl (fun known entry => Function.update known entry.1 (some entry.2)) known

/-- What is known of a name is a value of the round, or what was known before. -/
theorem learn_cases (known : Name → Option Value) (round : Round Name Value) (name : Name) :
    (∃ entry ∈ round, entry.1 = name ∧ learn known round name = some entry.2) ∨
      (∀ entry ∈ round, entry.1 ≠ name) ∧ learn known round name = known name := by
  induction round generalizing known with
  | nil => exact .inr ⟨List.forall_mem_nil _, rfl⟩
  | cons first rest inductionHypothesis =>
      rcases inductionHypothesis (Function.update known first.1 (some first.2)) with
        ⟨entry, inRest, isName, learned⟩ | ⟨notInRest, learned⟩
      · exact .inl ⟨entry, List.mem_cons_of_mem first inRest, isName, learned⟩
      · by_cases isFirst : first.1 = name
        · subst isFirst
          rw [Function.update_self] at learned
          exact .inl ⟨first, List.mem_cons_self, rfl, learned⟩
        · rw [Function.update_of_ne (Ne.symm isFirst)] at learned
          exact .inr ⟨List.forall_mem_cons.mpr ⟨isFirst, notInRest⟩, learned⟩

/-- A later round gives what is known after a round that gave what was known before. -/
theorem honors_learn_iff {known : Name → Option Value} {round later : Round Name Value}
    (honors : Honors known round) :
    Honors (learn known round) later ∧ Settled round later ↔
      Agree round later ∧ Honors known later := by
  constructor
  · rintro ⟨laterHonors, settled⟩
    have agree : Agree round later := by
      intro entry inRound other inLater sameName
      rcases learn_cases known round other.1 with
        ⟨last, isLast, isName, learned⟩ | ⟨notInRound, _⟩
      · rw [laterHonors other inLater last.2 learned]
        by_contra different
        exact settled entry inRound last isLast (sameName.trans isName.symm)
          (fun same => different same.symm) other inLater sameName.symm
      · exact absurd sameName (notInRound entry inRound)
    refine ⟨agree, fun other inLater value isKnown => ?_⟩
    rcases learn_cases known round other.1 with
      ⟨last, isLast, isName, learned⟩ | ⟨_, unchanged⟩
    · rw [agree last isLast other inLater isName]
      exact honors last isLast value (isName ▸ isKnown)
    · exact laterHonors other inLater value (unchanged.trans isKnown)
  · rintro ⟨agree, laterHonors⟩
    refine ⟨fun other inLater value isLearned => ?_, ?_⟩
    · rcases learn_cases known round other.1 with
        ⟨last, isLast, isName, learned⟩ | ⟨_, unchanged⟩
      · rw [agree last isLast other inLater isName]
        exact Option.some.inj (learned.symm.trans isLearned)
      · exact laterHonors other inLater value (unchanged.symm.trans isLearned)
    · intro entry inRound other isOther sameName different last inLater isName
      apply different
      rw [← agree entry inRound last inLater isName.symm,
        agree other isOther last inLater (sameName.symm.trans isName.symm)]

theorem guarded_learn_iff (known : Name → Option Value) (rounds : List (Round Name Value)) :
    Guarded learn Honors known rounds ∧ rounds.Pairwise Settled ↔
      rounds.Pairwise Agree ∧ ∀ round ∈ rounds, Honors known round := by
  induction rounds generalizing known with
  | nil => simp [Guarded]
  | cons round rest inductionHypothesis =>
      rw [Guarded, List.pairwise_cons, List.pairwise_cons, List.forall_mem_cons]
      have later := inductionHypothesis (learn known round)
      constructor
      · rintro ⟨⟨honors, guarded⟩, settled, restSettled⟩
        obtain ⟨restAgree, restHonors⟩ := later.mp ⟨guarded, restSettled⟩
        have both : ∀ other ∈ rest, Agree round other ∧ Honors known other :=
          fun other member => (honors_learn_iff honors).mp ⟨restHonors other member,
            settled other member⟩
        exact ⟨⟨fun other member => (both other member).1, restAgree⟩, honors,
          fun other member => (both other member).2⟩
      · rintro ⟨⟨agree, restAgree⟩, honors, restHonors⟩
        have both : ∀ other ∈ rest, Honors (learn known round) other ∧ Settled round other :=
          fun other member => (honors_learn_iff honors).mpr ⟨agree other member,
            restHonors other member⟩
        obtain ⟨guarded, restSettled⟩ := later.mpr
          ⟨restAgree, fun other member => (both other member).1⟩
        exact ⟨⟨honors, guarded⟩, fun other member => (both other member).2, restSettled⟩

/-- Names keep their values exactly where every round gives what is known from those before it, and
no name that was given two values comes back. -/
theorem pairwise_agree_iff (rounds : List (Round Name Value)) :
    rounds.Pairwise Agree ↔
      Guarded learn Honors (fun _ => none) rounds ∧ rounds.Pairwise Settled := by
  rw [guarded_learn_iff]
  refine (and_iff_left ?_).symm
  intro round _ entry _ value impossible
  cases impossible

end Learn

end Recalls
