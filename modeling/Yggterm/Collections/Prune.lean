import Mathlib.Algebra.Ring.Nat
import Mathlib.Data.Char
import Mathlib.Data.List.Lex
import Mathlib.Data.List.Sort

/-!
# Which snapshots are pruned

`plan_snapshot_prune` of `web_collection_store.rs` decides on a list of summaries.  Collections
leave the decision at once; snapshots go by age first, and by count among what is left.
-/

namespace Yggterm.Collections

def msPerDay : Nat := 24 * 60 * 60 * 1000

inductive CollectionKind where
  | collection
  | snapshot
  deriving DecidableEq

/-- What the decision reads of a summary. -/
structure CollectionSummary where
  id : List Char
  kind : CollectionKind
  createdAtMs : Option (Fin (2 ^ 64))
  deriving DecidableEq

structure PrunePolicy where
  maxAgeDays : Fin (2 ^ 64)
  maxCount : Nat

instance : Inhabited PrunePolicy := ⟨30, 200⟩

inductive PruneReason where
  /-- Older than the policy allows. -/
  | age (ageDays : Nat)
  /-- Inside the age window, but past the count; the rank counts from the newest. -/
  | overCount (rank : Nat)
  deriving DecidableEq

structure PrunePlan where
  prune : List (List Char × PruneReason) := []
  keep : List (List Char) := []
  protectedIds : List (List Char) := []
  deriving DecidableEq

/-- A moment that cannot be read counts as the oldest. -/
def CollectionSummary.createdOrZero (entry : CollectionSummary) : Nat :=
  (entry.createdAtMs.map Fin.val).getD 0

/-- Newest first, ties broken by id. -/
def NewestFirst (first second : CollectionSummary) : Prop :=
  second.createdOrZero < first.createdOrZero ∨
    first.createdOrZero = second.createdOrZero ∧ first.id ≤ second.id

instance (first second : CollectionSummary) : Decidable (NewestFirst first second) :=
  inferInstanceAs (Decidable (_ ∨ _))

/-- `max_age_days.saturating_mul(MS_PER_DAY)` -/
def PrunePolicy.maxAgeMs (policy : PrunePolicy) : Nat :=
  min (policy.maxAgeDays * msPerDay) (2 ^ 64 - 1)

def ageMs (nowMs : Fin (2 ^ 64)) (entry : CollectionSummary) : Option Nat :=
  entry.createdAtMs.map fun created => nowMs.val - created.val

/-- The age of an entry that is too old. -/
def overAge (nowMs : Fin (2 ^ 64)) (policy : PrunePolicy) (entry : CollectionSummary) :
    Option Nat :=
  (ageMs nowMs entry).filter (policy.maxAgeMs < ·)

/-- The pass over the sorted snapshots; `rank` counts those within the age limit. -/
def prunePass (nowMs : Fin (2 ^ 64)) (policy : PrunePolicy) (plan : PrunePlan) (rank : Nat) :
    List CollectionSummary → PrunePlan
  | [] => plan
  | entry :: rest =>
      match overAge nowMs policy entry with
      | some age =>
          let pruned := (entry.id, PruneReason.age (age / msPerDay))
          prunePass nowMs policy { plan with prune := plan.prune ++ [pruned] } rank rest
      | none =>
          if policy.maxCount ≤ rank then
            let pruned := (entry.id, PruneReason.overCount rank)
            prunePass nowMs policy { plan with prune := plan.prune ++ [pruned] } (rank + 1) rest
          else
            prunePass nowMs policy { plan with keep := plan.keep ++ [entry.id] } (rank + 1) rest

def planSnapshotPrune (entries : List CollectionSummary) (nowMs : Fin (2 ^ 64))
    (policy : PrunePolicy) : PrunePlan :=
  let snapshots := entries.filter (·.kind = .snapshot)
  let plan := { protectedIds := (entries.filter (·.kind = .collection)).map (·.id) }
  prunePass nowMs policy plan 0 (snapshots.mergeSort fun first second => NewestFirst first second)

/-! ## The order -/

theorem newestFirst_trans (first second third : CollectionSummary)
    (below : decide (NewestFirst first second) = true)
    (above : decide (NewestFirst second third) = true) :
    decide (NewestFirst first third) = true := by
  apply decide_eq_true
  rcases of_decide_eq_true below with newer | ⟨same, idBelow⟩
  · rcases of_decide_eq_true above with stillNewer | ⟨sameAgain, _⟩
    · exact .inl (stillNewer.trans newer)
    · exact .inl (sameAgain ▸ newer)
  · rcases of_decide_eq_true above with stillNewer | ⟨sameAgain, idAbove⟩
    · exact .inl (same ▸ stillNewer)
    · exact .inr ⟨same.trans sameAgain, idBelow.trans idAbove⟩

theorem newestFirst_total (first second : CollectionSummary) :
    (decide (NewestFirst first second) || decide (NewestFirst second first)) = true := by
  rw [Bool.or_eq_true, decide_eq_true_iff, decide_eq_true_iff]
  rcases lt_trichotomy first.createdOrZero second.createdOrZero with older | same | newer
  · exact .inr (.inl older)
  · rcases le_total first.id second.id with idBelow | idAbove
    · exact .inl (.inr ⟨same, idBelow⟩)
    · exact .inr (.inr ⟨same.symm, idAbove⟩)
  · exact .inl (.inl newer)

/-! ## The limit of age -/

/-- The age is unknown or within the limit. -/
def WithinAge (nowMs : Fin (2 ^ 64)) (policy : PrunePolicy) (entry : CollectionSummary) : Prop :=
  ∀ created ∈ entry.createdAtMs, (nowMs : Nat) - created ≤ policy.maxAgeDays * msPerDay

instance (nowMs : Fin (2 ^ 64)) (policy : PrunePolicy) (entry : CollectionSummary) :
    Decidable (WithinAge nowMs policy entry) :=
  inferInstanceAs (Decidable (∀ created ∈ entry.createdAtMs, _))

/-- No age reaches the value at which the limit saturates. -/
theorem maxAgeMs_lt_iff {policy : PrunePolicy} {nowMs created : Fin (2 ^ 64)} :
    policy.maxAgeMs < (nowMs : Nat) - created ↔
      policy.maxAgeDays * msPerDay < (nowMs : Nat) - created := by
  have bounded : (nowMs : Nat) - created ≤ 2 ^ 64 - 1 := by omega
  rw [PrunePolicy.maxAgeMs]
  omega

theorem overAge_eq_some_iff {nowMs : Fin (2 ^ 64)} {policy : PrunePolicy}
    {entry : CollectionSummary} {age : Nat} :
    overAge nowMs policy entry = some age ↔ ∃ created, entry.createdAtMs = some created ∧
      policy.maxAgeDays * msPerDay < (nowMs : Nat) - created ∧ age = (nowMs : Nat) - created := by
  rw [overAge, ageMs, Option.filter_eq_some_iff, Option.map_eq_some_iff]
  constructor
  · rintro ⟨⟨created, known, rfl⟩, exceeds⟩
    exact ⟨created, known, maxAgeMs_lt_iff.mp (of_decide_eq_true exceeds), rfl⟩
  · rintro ⟨created, known, exceeds, rfl⟩
    exact ⟨⟨created, known, rfl⟩, decide_eq_true (maxAgeMs_lt_iff.mpr exceeds)⟩

theorem withinAge_iff {nowMs : Fin (2 ^ 64)} {policy : PrunePolicy} {entry : CollectionSummary} :
    WithinAge nowMs policy entry ↔ overAge nowMs policy entry = none := by
  rw [Option.eq_none_iff_forall_ne_some]
  constructor
  · intro within age isOver
    obtain ⟨created, known, exceeds, _⟩ := overAge_eq_some_iff.mp isOver
    exact absurd (within created known) (Nat.not_le.mpr exceeds)
  · intro notOver created known
    apply Nat.le_of_not_lt
    intro exceeds
    exact notOver _ (overAge_eq_some_iff.mpr ⟨created, known, exceeds, rfl⟩)

/-! ## What the pass does -/

/-- Why an entry may be pruned, when `young` are the snapshots within the age limit. -/
def Justified (nowMs : Fin (2 ^ 64)) (policy : PrunePolicy) (young : List CollectionSummary)
    (entry : CollectionSummary) : PruneReason → Prop
  | .age ageDays => ∃ created, entry.createdAtMs = some created ∧
      policy.maxAgeDays * msPerDay < (nowMs : Nat) - created ∧
      ageDays = ((nowMs : Nat) - created) / msPerDay
  | .overCount rank => policy.maxCount ≤ rank ∧ young[rank]? = some entry

def prunedIds (pruned : List (CollectionSummary × PruneReason)) : List (List Char × PruneReason) :=
  pruned.map fun entry => (entry.1.id, entry.2)

/-- `before` are the snapshots within the age limit that the pass has left behind. -/
theorem exists_prunePass (nowMs : Fin (2 ^ 64)) (policy : PrunePolicy) (plan : PrunePlan)
    (before entries : List CollectionSummary) :
    ∃ pruned : List (CollectionSummary × PruneReason),
      prunePass nowMs policy plan before.length entries =
        { prune := plan.prune ++ prunedIds pruned
          keep := plan.keep ++ (((entries.filter (WithinAge nowMs policy ·)).take
            (policy.maxCount - before.length)).map (·.id))
          protectedIds := plan.protectedIds } ∧
      (pruned.map Prod.fst).Perm (entries.filter (¬ WithinAge nowMs policy ·) ++
        (entries.filter (WithinAge nowMs policy ·)).drop (policy.maxCount - before.length)) ∧
      ∀ entry ∈ pruned, Justified nowMs policy
        (before ++ entries.filter (WithinAge nowMs policy ·)) entry.1 entry.2 := by
  induction entries generalizing plan before with
  | nil => exact ⟨[], by simp [prunePass, prunedIds], by simp, by simp⟩
  | cons entry rest inductionHypothesis =>
      rw [prunePass]
      cases isOver : overAge nowMs policy entry with
      | some age =>
          have old : ¬ WithinAge nowMs policy entry := by
            rw [withinAge_iff, isOver]
            exact Option.some_ne_none age
          obtain ⟨pruned, isPlan, isPerm, justified⟩ := inductionHypothesis
            { plan with prune := plan.prune ++ [(entry.id, .age (age / msPerDay))] } before
          obtain ⟨created, known, exceeds, rfl⟩ := overAge_eq_some_iff.mp isOver
          refine ⟨(entry, .age (((nowMs : Nat) - created) / msPerDay)) :: pruned, ?_, ?_, ?_⟩
          · dsimp only at isPlan ⊢
            rw [isPlan]
            simp [prunedIds, old]
          · simpa [old] using isPerm
          · rw [List.filter_cons_of_neg (by simpa using old)]
            rw [List.forall_mem_cons]
            exact ⟨⟨created, known, exceeds, rfl⟩, justified⟩
      | none =>
          have young : WithinAge nowMs policy entry := withinAge_iff.mpr isOver
          have isFilter : (entry :: rest).filter (WithinAge nowMs policy ·) =
              entry :: rest.filter (WithinAge nowMs policy ·) :=
            List.filter_cons_of_pos (decide_eq_true young)
          have isLength : before.length + 1 = (before ++ [entry]).length := by simp
          have behind : before ++ entry :: rest.filter (WithinAge nowMs policy ·) =
              (before ++ [entry]) ++ rest.filter (WithinAge nowMs policy ·) := by simp
          rw [isFilter, behind]
          dsimp only
          rw [isLength]
          split
          · next full =>
              obtain ⟨pruned, isPlan, isPerm, justified⟩ := inductionHypothesis
                { plan with prune := plan.prune ++ [(entry.id, .overCount before.length)] }
                (before ++ [entry])
              have noRoom : policy.maxCount - before.length = 0 := Nat.sub_eq_zero_of_le full
              have stillNone : policy.maxCount - (before ++ [entry]).length = 0 := by
                rw [← isLength]
                omega
              rw [stillNone] at isPlan isPerm
              rw [noRoom]
              refine ⟨(entry, .overCount before.length) :: pruned, ?_, ?_, ?_⟩
              · rw [isPlan]
                simp [prunedIds]
              · rw [List.filter_cons_of_neg (by simpa using young)]
                exact (isPerm.cons entry).trans List.perm_middle.symm
              · exact List.forall_mem_cons.mpr ⟨⟨full, by simp⟩, justified⟩
          · next room =>
              obtain ⟨pruned, isPlan, isPerm, justified⟩ := inductionHypothesis
                { plan with keep := plan.keep ++ [entry.id] } (before ++ [entry])
              have isRoom : policy.maxCount - before.length =
                  policy.maxCount - (before ++ [entry]).length + 1 := by
                rw [← isLength]
                omega
              refine ⟨pruned, ?_, ?_, justified⟩
              · rw [isPlan, isRoom]
                simp
              · rw [isRoom]
                simpa [young] using isPerm

/-! ## The plan -/

/-- The parts a plan divides the entries into.  `young` are the snapshots within the age limit,
the newest first. -/
structure PruneParts (entries : List CollectionSummary) (nowMs : Fin (2 ^ 64))
    (policy : PrunePolicy) where
  kept : List CollectionSummary
  pruned : List (CollectionSummary × PruneReason)
  young : List CollectionSummary
  partition : (kept ++ pruned.map Prod.fst ++ entries.filter (·.kind = .collection)).Perm entries
  pruned_snapshot : ∀ entry ∈ pruned, entry.1.kind = .snapshot
  young_perm : young.Perm
    (entries.filter fun entry => entry.kind = .snapshot ∧ WithinAge nowMs policy entry)
  young_sorted : young.Pairwise NewestFirst
  kept_eq : kept = young.take policy.maxCount
  justified : ∀ entry ∈ pruned, Justified nowMs policy young entry.1 entry.2

/-- The plan that names the entries of the parts. -/
def PruneParts.plan {entries : List CollectionSummary} {nowMs : Fin (2 ^ 64)} {policy : PrunePolicy}
    (parts : PruneParts entries nowMs policy) : PrunePlan where
  prune := prunedIds parts.pruned
  keep := parts.kept.map (·.id)
  protectedIds := (entries.filter (·.kind = .collection)).map (·.id)

/-- A snapshot of unknown age is pruned for the count only. -/
theorem PruneParts.overCount_of_unknown {entries : List CollectionSummary} {nowMs : Fin (2 ^ 64)}
    {policy : PrunePolicy} (parts : PruneParts entries nowMs policy) {entry : CollectionSummary}
    {reason : PruneReason} (isPruned : (entry, reason) ∈ parts.pruned)
    (unknown : entry.createdAtMs = none) : ∃ rank, reason = .overCount rank := by
  have justified := parts.justified _ isPruned
  cases reason with
  | age ageDays =>
      obtain ⟨created, known, _⟩ := justified
      rw [unknown] at known
      cases known
  | overCount rank => exact ⟨rank, rfl⟩

theorem filter_snapshot_append_perm (entries : List CollectionSummary) :
    (entries.filter (·.kind = .snapshot) ++
        entries.filter (·.kind = .collection)).Perm entries := by
  have isCollection : entries.filter (·.kind = .collection) =
      entries.filter fun entry => !(decide (entry.kind = .snapshot)) := by
    apply List.filter_congr
    intro entry _
    cases entry.kind with
    | collection => rfl
    | snapshot => rfl
  rw [isCollection]
  exact List.filter_append_perm _ entries

theorem planSnapshotPrune_eq_plan (entries : List CollectionSummary) (nowMs : Fin (2 ^ 64))
    (policy : PrunePolicy) :
    ∃ parts : PruneParts entries nowMs policy, planSnapshotPrune entries nowMs policy =
        parts.plan := by
  let snapshots := entries.filter (·.kind = .snapshot)
  let sorted := snapshots.mergeSort fun first second => NewestFirst first second
  let young := sorted.filter (WithinAge nowMs policy ·)
  have sortedPerm : sorted.Perm snapshots := List.mergeSort_perm _ _
  obtain ⟨pruned, isPlan, isPerm, justified⟩ := exists_prunePass nowMs policy
    { protectedIds := (entries.filter (·.kind = .collection)).map (·.id) } [] sorted
  have isSplit : (young.take policy.maxCount ++ pruned.map Prod.fst).Perm sorted := by
    have isOld : sorted.filter (¬ WithinAge nowMs policy ·) =
        sorted.filter fun entry => !decide (WithinAge nowMs policy entry) := by
      simp only [decide_not]
    have allParts := (isPerm.trans List.perm_append_comm).append_left (young.take policy.maxCount)
    rw [List.length_nil, Nat.sub_zero, ← List.append_assoc, List.take_append_drop] at allParts
    rw [isOld] at allParts
    exact allParts.trans (List.filter_append_perm _ sorted)
  exact ⟨{
    kept := young.take policy.maxCount
    pruned
    young
    partition := ((isSplit.trans sortedPerm).append_right _).trans
      (filter_snapshot_append_perm entries)
    pruned_snapshot := by
      intro entry member
      have inSorted := isSplit.subset (List.mem_append_right _ (List.mem_map_of_mem member))
      exact of_decide_eq_true (List.mem_filter.mp (sortedPerm.subset inSorted)).2
    young_perm := by
      have isFilter := sortedPerm.filter (WithinAge nowMs policy ·)
      rw [List.filter_filter] at isFilter
      simpa only [Bool.decide_and, Bool.and_comm] using isFilter
    young_sorted := by
      have isSorted := List.pairwise_mergeSort newestFirst_trans newestFirst_total snapshots
      exact (isSorted.imp of_decide_eq_true).sublist List.filter_sublist
    kept_eq := rfl
    justified }, isPlan⟩

end Yggterm.Collections
