import Mathlib.Data.List.Nodup

/-!
# Tables with a unique column

The rows of a database table of which one column is unique.  An `UPDATE` visits the rows it
is about in an order of its own, changes them one by one, and is undone as a whole when a
row would take a value that another row has at that time.
-/

namespace Tables

universe u v

structure Table (Row : Type u) (Key : Type v) (key : Row → Key) where
  rows : List Row
  unique : (rows.map key).Nodup

/-- An order in which a statement visits rows. -/
structure VisitOrder (Row : Type u) where
  arrange : List Row → List Row
  perm : ∀ rows, (arrange rows).Perm rows

/-- The order in which the rows stand. -/
def VisitOrder.inTurn {Row : Type u} : VisitOrder Row := ⟨id, fun _ => .refl _⟩

variable {Row : Type u} {Key : Type v} {key : Row → Key}

namespace Table

theorem eq_of_key_eq (table : Table Row Key key) {row other : Row} (isRow : row ∈ table.rows)
    (isOther : other ∈ table.rows) (same : key row = key other) : row = other :=
  List.inj_on_of_nodup_map table.unique isRow isOther same

/-- `DELETE`. -/
def deleteWhere (condition : Row → Bool) (table : Table Row Key key) : Table Row Key key where
  rows := table.rows.filter fun row => !condition row
  unique := table.unique.sublist (List.filter_sublist.map key)

@[simp]
theorem rows_deleteWhere (condition : Row → Bool) (table : Table Row Key key) :
    (table.deleteWhere condition).rows = table.rows.filter fun row => !condition row :=
  rfl

variable [DecidableEq Key]

def find? (table : Table Row Key key) (wanted : Key) : Option Row :=
  table.rows.find? fun row => key row = wanted

/-- `INSERT`, or `UPDATE` of the row that has the key. -/
def upsert (row : Row) (table : Table Row Key key) : Table Row Key key :=
  if present : key row ∈ table.rows.map key then
    { rows := table.rows.map fun other => if key other = key row then row else other
      unique := by
        have same : key ∘ (fun other => if key other = key row then row else other) = key := by
          funext other
          simp only [Function.comp]
          split
          · next isSame => exact isSame.symm
          · rfl
        rw [List.map_map, same]
        exact table.unique }
  else
    { rows := table.rows ++ [row]
      unique := by
        rw [List.map_append]
        exact table.unique.append (List.nodup_singleton _) (by simpa using present) }

theorem rows_upsert_of_mem {table : Table Row Key key} {row : Row}
    (present : key row ∈ table.rows.map key) : (table.upsert row).rows =
      table.rows.map fun other => if key other = key row then row else other := by
  rw [upsert, dif_pos present]

theorem rows_upsert_of_not_mem {table : Table Row Key key} {row : Row}
    (absent : key row ∉ table.rows.map key) : (table.upsert row).rows = table.rows ++ [row] := by
  rw [upsert, dif_neg absent]

/-- Change one row, unless another has the key it would take. -/
def changeRow (change : Row → Row) (table : Table Row Key key) (row : Row) :
    Option (Table Row Key key) :=
  let rows := table.rows.map fun other => if key other = key row then change row else other
  if unique : (rows.map key).Nodup then some ⟨rows, unique⟩ else none

/-- `UPDATE`. -/
def updateWhere (order : VisitOrder Row) (condition : Row → Bool) (change : Row → Row)
    (table : Table Row Key key) : Option (Table Row Key key) :=
  (order.arrange (table.rows.filter condition)).foldlM (changeRow change) table

theorem find?_eq_some_iff {table : Table Row Key key} {wanted : Key} {row : Row} :
    table.find? wanted = some row ↔ row ∈ table.rows ∧ key row = wanted := by
  constructor
  · intro found
    exact ⟨List.mem_of_find?_eq_some found, by simpa using List.find?_some found⟩
  · rintro ⟨member, rfl⟩
    cases found : table.find? (key row) with
    | none => simpa using List.find?_eq_none.mp found row member
    | some other =>
        have isOther : key other = key row := by simpa using List.find?_some found
        rw [table.eq_of_key_eq (List.mem_of_find?_eq_some found) member isOther]

theorem find?_eq_none_iff {table : Table Row Key key} {wanted : Key} :
    table.find? wanted = none ↔ ∀ row ∈ table.rows, key row ≠ wanted := by
  simp [find?]

theorem rows_of_changeRow {change : Row → Row} {table after : Table Row Key key} {row : Row}
    (changed : table.changeRow change row = some after) :
    after.rows = table.rows.map fun other => if key other = key row then change row else other := by
  rw [changeRow] at changed
  split at changed
  · cases changed
    rfl
  · cases changed

/-- The rows that were visited are changed, and the others still have their keys. -/
theorem rows_of_foldlM_changeRow {change : Row → Row} {rows visits : List Row}
    (unique : (rows.map key).Nodup) (distinct : (visits.map key).Nodup) {done : List Key}
    (toVisit : ∀ row ∈ visits, row ∈ rows ∧ key row ∉ done) {table after : Table Row Key key}
    (soFar : table.rows = rows.map fun row => if key row ∈ done then change row else row)
    (visited : visits.foldlM (changeRow change) table = some after) :
    after.rows = rows.map fun row =>
      if key row ∈ done ∨ key row ∈ visits.map key then change row else row := by
  induction visits generalizing done table with
  | nil =>
      obtain rfl := Option.some.inj visited
      simpa using soFar
  | cons row rest inductionHypothesis =>
      obtain ⟨notAgain, restDistinct⟩ := List.nodup_cons.mp distinct
      obtain ⟨⟨isRow, notDone⟩, restToVisit⟩ := List.forall_mem_cons.mp toVisit
      obtain ⟨next, changed, later⟩ := Option.bind_eq_some_iff.mp visited
      have nextRows : next.rows = rows.map fun other =>
          if key other ∈ key row :: done then change other else other := by
        rw [rows_of_changeRow changed, soFar, List.map_map]
        apply List.map_congr_left
        intro other isOther
        simp only [Function.comp, List.mem_cons]
        by_cases otherDone : key other ∈ done
        · -- a changed row that had the key of this one would stand in its way
          have apart : key (change other) ≠ key row := by
            intro same
            have tableUnique := table.unique
            rw [soFar, List.map_map] at tableUnique
            have isSame := List.inj_on_of_nodup_map tableUnique isOther isRow (by
              simp [otherDone, notDone, same])
            exact notDone (isSame ▸ otherDone)
          simp [otherDone, apart]
        · by_cases same : key other = key row
          · rw [List.inj_on_of_nodup_map unique isOther isRow same]
            simp [notDone]
          · simp [otherDone, same]
      rw [inductionHypothesis restDistinct _ nextRows later]
      · apply List.map_congr_left
        intro other _
        simp [or_assoc, or_left_comm]
      · intro other isLater
        obtain ⟨isOther, otherNotDone⟩ := restToVisit other isLater
        refine ⟨isOther, List.not_mem_cons_of_ne_of_not_mem ?_ otherNotDone⟩
        exact fun same => notAgain (same ▸ List.mem_map_of_mem isLater)

/-- An update that goes through changes the rows it is about, and no others. -/
theorem rows_of_updateWhere {order : VisitOrder Row} {condition : Row → Bool}
    {change : Row → Row} {table after : Table Row Key key}
    (updated : table.updateWhere order condition change = some after) :
    after.rows = table.rows.map fun row => if condition row then change row else row := by
  have visits := order.perm (table.rows.filter condition)
  have distinct : ((order.arrange (table.rows.filter condition)).map key).Nodup :=
    (visits.map key).nodup_iff.mpr (table.unique.sublist (List.filter_sublist.map key))
  have toVisit : ∀ row ∈ order.arrange (table.rows.filter condition),
      row ∈ table.rows ∧ key row ∉ ([] : List Key) := by
    intro row isVisit
    exact ⟨(List.mem_filter.mp (visits.mem_iff.mp isVisit)).1, List.not_mem_nil⟩
  rw [rows_of_foldlM_changeRow table.unique distinct toVisit (by simp) updated]
  apply List.map_congr_left
  intro row isRow
  have isVisited : key row ∈ (order.arrange (table.rows.filter condition)).map key ↔
      condition row = true := by
    rw [(visits.map key).mem_iff, List.mem_map]
    constructor
    · rintro ⟨other, isOther, same⟩
      obtain ⟨member, holds⟩ := List.mem_filter.mp isOther
      rwa [← table.eq_of_key_eq member isRow same]
    · exact fun holds => ⟨row, List.mem_filter.mpr ⟨isRow, holds⟩, rfl⟩
  simp [isVisited]

end Table

end Tables
