import Yggterm.Tombstones.Shared

/-!
# The ledger of departures

Every departure is appended to the file's ledger, which keeps the newest up to its cap.  Whether
the file is written is decided by the length of the ledger, which an append to a full ledger
leaves as it was.
-/

namespace Yggterm.Tombstones

open Newest

/-- What a full ledger keeps: the later ones. -/
structure KeepsNewest (all kept : List LiveRowDeparture) : Prop where
  within : kept.length ≤ maxDepartures
  newest : ∃ dropped, (dropped ++ kept).Perm all ∧
    (dropped ≠ [] → kept.length = maxDepartures) ∧
    ∀ older ∈ dropped, ∀ newer ∈ kept, older.departedAt ≤ newer.departedAt

/-- The saved file has the departure, and of all departures it has the newest. -/
def Ledgered (file : LiveRowTombstones) (departure : LiveRowDeparture) : Prop :=
  let saved := (file.recordDeparture departure).1
  departure ∈ saved.departures ∧ KeepsNewest (file.departures ++ [departure]) saved.departures

/-- The end of the sorted ledger. -/
theorem keepsNewest_drop {all : List LiveRowDeparture} (full : maxDepartures < all.length) :
    KeepsNewest all
      ((all.mergeSort fun first second => decide (first.departedAt ≤ second.departedAt)).drop
        (all.length - maxDepartures)) := by
  have rising := pairwise_mergeSort_byKey LiveRowDeparture.departedAt all
  have sameItems := List.mergeSort_perm all fun first second =>
    decide (first.departedAt ≤ second.departedAt)
  have length : ((all.mergeSort fun first second =>
      decide (first.departedAt ≤ second.departedAt)).drop
        (all.length - maxDepartures)).length = maxDepartures := by
    rw [List.length_drop, List.length_mergeSort]
    omega
  refine ⟨length.le, (all.mergeSort fun first second =>
    decide (first.departedAt ≤ second.departedAt)).take (all.length - maxDepartures), ?_, ?_, ?_⟩
  · rw [List.take_append_drop]
    exact sameItems
  · exact fun _ => length
  · rw [← List.take_append_drop (all.length - maxDepartures)
      (all.mergeSort fun first second => decide (first.departedAt ≤ second.departedAt))] at rising
    exact (List.pairwise_append.mp rising).2.2

theorem keepsNewest_self {all : List LiveRowDeparture} (fits : all.length ≤ maxDepartures) :
    KeepsNewest all all where
  within := fits
  newest := ⟨[], List.Perm.refl _, fun nothing => absurd rfl nothing,
    fun _ impossible => absurd impossible List.not_mem_nil⟩

namespace LiveRowTombstones

variable {file : LiveRowTombstones} {departure : LiveRowDeparture}

theorem departures_pushDeparture (file : LiveRowTombstones) (departure : LiveRowDeparture) :
    (file.pushDeparture departure).departures =
      if maxDepartures < (file.departures ++ [departure]).length then
        ((file.departures ++ [departure]).mergeSort fun first second =>
          decide (first.departedAt ≤ second.departedAt)).drop
            ((file.departures ++ [departure]).length - maxDepartures)
      else file.departures ++ [departure] := rfl

theorem length_pushDeparture (file : LiveRowTombstones) (departure : LiveRowDeparture) :
    (file.pushDeparture departure).departures.length =
      min maxDepartures (file.departures.length + 1) := by
  rw [departures_pushDeparture]
  split
  · next full =>
      rw [List.length_drop, List.length_mergeSort]
      rw [List.length_append, List.length_singleton] at full ⊢
      omega
  · next fits =>
      rw [List.length_append, List.length_singleton] at fits ⊢
      omega

/-- The file is written exactly when the length changes. -/
theorem departures_recordDeparture (file : LiveRowTombstones) (departure : LiveRowDeparture) :
    (file.recordDeparture departure).1.departures =
      if file.departures.length = maxDepartures then file.departures
      else (file.pushDeparture departure).departures := by
  have sameEntries : (file.pushDeparture departure).entries = file.entries := rfl
  have changed_iff : (file.pushDeparture departure).departures.length = file.departures.length ↔
      file.departures.length = maxDepartures := by
    rw [length_pushDeparture]
    omega
  rw [recordDeparture, mutateShared]
  simp only [sameEntries, ne_eq, not_true_eq_false, decide_false, Bool.false_or, decide_eq_true_eq,
    changed_iff]
  by_cases full : file.departures.length = maxDepartures
  · rw [if_neg (not_not.mpr full), if_pos full]
  · rw [if_pos full, if_neg full]

/-- What is pushed last is kept, and what goes is not newer than what stays. -/
theorem ledgered_push
    (latest : ∀ other ∈ file.departures, other.departedAt ≤ departure.departedAt) :
    departure ∈ (file.pushDeparture departure).departures ∧
      KeepsNewest (file.departures ++ [departure]) (file.pushDeparture departure).departures := by
  rw [departures_pushDeparture]
  split
  · next full =>
      refine ⟨?_, keepsNewest_drop full⟩
      rw [List.length_append, List.length_singleton] at full ⊢
      have cap : 0 < maxDepartures := by decide
      rw [mergeSort_concat LiveRowDeparture.departedAt file.departures latest,
        List.drop_append_of_le_length]
      · exact List.mem_append_right _ List.mem_cons_self
      · rw [List.length_mergeSort]
        omega
  · next fits =>
      exact ⟨List.mem_append_right _ List.mem_cons_self, keepsNewest_self (not_lt.mp fits)⟩

end LiveRowTombstones

def departureAt (identity : String) (second : Nat) : LiveRowDeparture where
  identity := identity
  path := identity
  title := ""
  reason := .peerSessionGone
  departedAt := second
  detail := none
  kind := none
  cwd := none

def fullLedger : LiveRowTombstones where
  entries := ∅
  departures := List.replicate maxDepartures (departureAt "row-a" 0)

end Yggterm.Tombstones
