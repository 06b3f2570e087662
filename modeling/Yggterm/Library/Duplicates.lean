import Mathlib.Data.List.Nodup

/-!
# First occurrences

A loop that skips what it has already seen runs over the first occurrences.
-/

namespace Duplicates

universe u

variable {Row : Type u} [DecidableEq Row]

/-- The first occurrences of what is not seen yet. -/
def unseen (seen rows : List Row) : List Row := (rows.filter (· ∉ seen)).eraseDups

theorem unseen_empty (rows : List Row) : unseen [] rows = rows.eraseDups := by
  rw [unseen, List.filter_eq_self.mpr fun row _ => decide_eq_true List.not_mem_nil]

theorem unseen_cons_of_mem {seen : List Row} {row : Row} (repeated : row ∈ seen)
    (rest : List Row) : unseen seen (row :: rest) = unseen seen rest := by
  rw [unseen, List.filter_cons_of_neg (by simpa using repeated), unseen]

theorem unseen_cons_of_not_mem {seen : List Row} {row : Row} (fresh : row ∉ seen)
    (rest : List Row) : unseen seen (row :: rest) = row :: unseen (row :: seen) rest := by
  have later : (rest.filter (· ∉ seen)).filter (fun other => !other == row) =
      rest.filter (· ∉ row :: seen) := by
    rw [List.filter_filter]
    apply List.filter_congr
    intro other _
    by_cases same : other = row
    · simp [same]
    · simp [same]
  rw [unseen, List.filter_cons_of_pos (by simpa using fresh), List.eraseDups_cons, later, unseen]

theorem not_mem_of_mem_unseen {seen rows : List Row} {row : Row} (member : row ∈ unseen seen rows) :
    row ∉ seen :=
  of_decide_eq_true (List.mem_filter.mp (List.mem_eraseDups.mp member)).2

theorem nodup_unseen (seen rows : List Row) : (unseen seen rows).Nodup := by
  induction rows generalizing seen with
  | nil => exact List.nodup_nil
  | cons row rest inductionHypothesis =>
      by_cases repeated : row ∈ seen
      · rw [unseen_cons_of_mem repeated]
        exact inductionHypothesis seen
      · rw [unseen_cons_of_not_mem repeated]
        apply List.nodup_cons.mpr
        refine ⟨?_, inductionHypothesis (row :: seen)⟩
        intro later
        exact not_mem_of_mem_unseen later List.mem_cons_self

theorem nodup_eraseDups (rows : List Row) : rows.eraseDups.Nodup :=
  unseen_empty rows ▸ nodup_unseen [] rows

theorem eraseDups_of_nodup {rows : List Row} (nodup : rows.Nodup) : rows.eraseDups = rows := by
  induction rows with
  | nil => rfl
  | cons row rest inductionHypothesis =>
      obtain ⟨fresh, restNodup⟩ := List.nodup_cons.mp nodup
      have kept : rest.filter (fun other => !other == row) = rest := by
        apply List.filter_eq_self.mpr
        intro other member
        have different : other ≠ row := fun same => fresh (same ▸ member)
        simp [different]
      rw [List.eraseDups_cons, kept, inductionHypothesis restNodup]

end Duplicates
