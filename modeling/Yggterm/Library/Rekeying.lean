import Mathlib.Data.Finset.Max
import Mathlib.Order.Preorder.Finite
import Yggterm.Library.Tables

/-!
# Rekeying

Rows of a table are visited in the order of their keys, and given new keys.  A row whose new
key is taken is either dropped or left where it is.
-/

namespace Tables

universe u v

/-- How a row is given a key. -/
structure KeySetter {Row : Type u} {Key : Type v} (key : Row → Key) where
  set : Key → Row → Row
  key_set : ∀ wanted row, key (set wanted row) = wanted

namespace Table

variable {Row : Type u} {Key : Type v} {key : Row → Key}

def keys (table : Table Row Key key) : List Key := table.rows.map key

theorem unique_keys (table : Table Row Key key) : table.keys.Nodup :=
  table.unique

theorem mem_keys_iff {table : Table Row Key key} {wanted : Key} :
    wanted ∈ table.keys ↔ ∃ row ∈ table.rows, key row = wanted :=
  List.mem_map

/-- Of rows that were changed, one has the key of a row that is in the table. -/
theorem eq_of_key_change_eq {table : Table Row Key key} {rows : List Row} {change : Row → Row}
    (isChanged : table.rows = rows.map change) {row other : Row} (isRow : row ∈ rows)
    (isOther : other ∈ rows) (same : key (change row) = key (change other)) : row = other := by
  have unique := table.unique
  rw [isChanged, List.map_map] at unique
  exact List.inj_on_of_nodup_map unique isRow isOther same

variable [DecidableEq Key] (setter : KeySetter key)

/-- The row at `old` goes to a key that is free. -/
def rekey (table : Table Row Key key) (old new : Key) (free : new ∉ table.keys) :
    Table Row Key key where
  rows := table.rows.map fun row => if key row = old then setter.set new row else row
  unique := by
    rw [List.map_map]
    apply List.Nodup.map_on
    · intro row isRow other isOther same
      have apart : ∀ row ∈ table.rows, key row ≠ new := fun row isRow isNew =>
        free (isNew ▸ List.mem_map_of_mem isRow)
      simp only [Function.comp] at same
      apply table.eq_of_key_eq isRow isOther
      split at same
      · next isOld =>
          split at same
          · next otherOld => rw [isOld, otherOld]
          · rw [setter.key_set] at same
            exact absurd same.symm (apart other isOther)
      · split at same
        · rw [setter.key_set] at same
          exact absurd same (apart row isRow)
        · exact same
    · exact table.unique.of_map key

@[simp]
theorem rows_rekey {table : Table Row Key key} {old new : Key} (free : new ∉ table.keys) :
    (table.rekey setter old new free).rows =
      table.rows.map fun row => if key row = old then setter.set new row else row :=
  rfl

theorem mem_keys_rekey {table : Table Row Key key} {old new : Key} (free : new ∉ table.keys)
    (present : old ∈ table.keys) {wanted : Key} :
    wanted ∈ (table.rekey setter old new free).keys ↔
      wanted ∈ table.keys ∧ wanted ≠ old ∨ wanted = new := by
  simp only [mem_keys_iff, rekey, List.mem_map]
  constructor
  · rintro ⟨_, ⟨row, isRow, rfl⟩, isWanted⟩
    split at isWanted
    · exact .inr (isWanted.symm.trans (setter.key_set new row))
    · next other => exact .inl ⟨⟨row, isRow, isWanted⟩, isWanted ▸ other⟩
  · rintro (⟨⟨row, isRow, rfl⟩, other⟩ | rfl)
    · exact ⟨row, ⟨row, isRow, if_neg other⟩, rfl⟩
    · obtain ⟨row, isRow, isOld⟩ := mem_keys_iff.mp present
      exact ⟨_, ⟨row, isRow, if_pos isOld⟩, setter.key_set wanted row⟩

theorem mem_keys_deleteWhere {table : Table Row Key key} {old wanted : Key} :
    wanted ∈ (table.deleteWhere fun row => key row = old).keys ↔
      wanted ∈ table.keys ∧ wanted ≠ old := by
  simp only [mem_keys_iff, deleteWhere, List.mem_filter]
  constructor
  · rintro ⟨row, ⟨isRow, kept⟩, rfl⟩
    exact ⟨⟨row, isRow, rfl⟩, by simpa using kept⟩
  · rintro ⟨⟨row, isRow, rfl⟩, other⟩
    exact ⟨row, ⟨isRow, by simpa using other⟩, rfl⟩

/-- Visit the key `old`; a row whose new key is taken is dropped. -/
def moveOrDrop (stays : Key → Bool) (target : Key → Key) (table : Table Row Key key) (old : Key) :
    Table Row Key key :=
  if stays old then table
  else if taken : target old ∈ table.keys then table.deleteWhere fun row => key row = old
  else table.rekey setter old (target old) taken

/-- Visit the key `old`; a row whose new key is taken is left. -/
def moveOrLeave (target : Key → Key) (table : Table Row Key key) (old : Key) :
    Table Row Key key :=
  if target old = old then table
  else if taken : target old ∈ table.keys then table
  else table.rekey setter old (target old) taken

/-! ## Rows that are dropped -/

section Drops

variable (stays : Key → Bool) (target : Key → Key)

def destination (old : Key) : Key := if stays old then old else target old

/-- The row as it is when some keys have been visited and it was not dropped. -/
def carried (visited : List Key) (row : Row) : Row :=
  if key row ∈ visited ∧ stays (key row) = false then setter.set (target (key row)) row else row

/-- The row is dropped for one that has yet to leave. -/
def Swallowed [LT Key] (keys : List Key) (old : Key) : Prop :=
  stays old = false ∧ target old ∈ keys ∧ old < target old ∧ stays (target old) = false

instance [LT Key] [DecidableLT Key] (keys : List Key) (old : Key) :
    Decidable (Swallowed stays target keys old) :=
  inferInstanceAs (Decidable (_ ∧ _ ∧ _ ∧ _))

/-- Some row of those with these keys ends up at `wanted`. -/
def Arrives [LT Key] (keys : List Key) (wanted : Key) : Prop :=
  ∃ old ∈ keys, ¬ Swallowed stays target keys old ∧ destination stays target old = wanted

/-- The keys of the rows that are there when some keys have been visited. -/
def Occupied [LT Key] (keys visited : List Key) (wanted : Key) : Prop :=
  wanted ∈ keys ∧ wanted ∉ visited ∨
    ∃ old ∈ visited, ¬ Swallowed stays target keys old ∧ destination stays target old = wanted

/-- What became of the rows of `base` when some keys have been visited. -/
structure Dropping [LT Key] (base : Table Row Key key) (visited : List Key)
    (table : Table Row Key key) : Prop where
  rows : ∃ kept : List Row, kept.Sublist base.rows ∧
    table.rows = kept.map (carried setter stays target visited) ∧
    ∀ row ∈ base.rows, stays (key row) = true ∨ key row ∉ visited → row ∈ kept
  keys : ∀ wanted, wanted ∈ table.keys ↔ Occupied stays target base.keys visited wanted

variable {setter stays target} {base table : Table Row Key key}

theorem carried_of_not_mem {visited : List Key} {row : Row} (ahead : key row ∉ visited) :
    carried setter stays target visited row = row :=
  if_neg fun both => ahead both.1

theorem key_carried_cons {visited : List Key} {old : Key} {row : Row} (other : key row ≠ old) :
    carried setter stays target (old :: visited) row = carried setter stays target visited row := by
  simp [carried, other]

theorem carried_cons_of_stays {visited : List Key} {old : Key} (stay : stays old = true)
    (row : Row) :
    carried setter stays target (old :: visited) row = carried setter stays target visited row := by
  by_cases isOld : key row = old
  · simp [carried, isOld, stay]
  · exact key_carried_cons isOld

/-- Of the rows that are kept, only the row at `old` itself has that key when `old` is visited. -/
theorem key_carried_eq_iff {visited : List Key} {kept : List Row} {old : Key}
    (isTable : table.rows = kept.map (carried setter stays target visited))
    (ahead : old ∉ visited) (present : ∃ row ∈ kept, key row = old) {row : Row}
    (isKept : row ∈ kept) :
    key (carried setter stays target visited row) = old ↔ key row = old := by
  constructor
  · intro same
    obtain ⟨other, otherKept, isOld⟩ := present
    have otherSame : carried setter stays target visited other = other :=
      carried_of_not_mem (isOld ▸ ahead)
    have isOther := eq_of_key_change_eq isTable isKept otherKept (by rw [same, otherSame, isOld])
    rw [isOther, isOld]
  · intro isOld
    rw [carried_of_not_mem (isOld ▸ ahead), isOld]

omit [DecidableEq Key] in
theorem destination_of_stays {old : Key} (stay : stays old = true) :
    destination stays target old = old :=
  if_pos stay

omit [DecidableEq Key] in
theorem destination_of_moves {old : Key} (move : stays old = false) :
    destination stays target old = target old :=
  if_neg (by simp [move])

section Order

variable [PartialOrder Key] {visited : List Key} {old : Key}

omit [DecidableEq Key] in
theorem not_swallowed_of_stays {keys : List Key} (stay : stays old = true) :
    ¬ Swallowed stays target keys old := by
  rintro ⟨move, _⟩
  rw [stay] at move
  cases move

/-- The key `old` stays occupied when it is visited only if its row stays. -/
theorem occupied_cons_iff {keys : List Key} (isVisited : ∀ other ∈ visited, other < old)
    (present : old ∈ keys) {wanted : Key} :
    Occupied stays target keys (old :: visited) wanted ↔
      Occupied stays target keys visited wanted ∧ wanted ≠ old ∨
      ¬ Swallowed stays target keys old ∧ destination stays target old = wanted := by
  constructor
  · rintro (⟨isKey, ahead⟩ | ⟨other, isOther, notSwallowed, arrives⟩)
    · obtain ⟨different, ahead⟩ := List.ne_and_not_mem_of_not_mem_cons ahead
      exact .inl ⟨.inl ⟨isKey, ahead⟩, different⟩
    · rcases List.mem_cons.mp isOther with rfl | isEarlier
      · exact .inr ⟨notSwallowed, arrives⟩
      · by_cases isOld : wanted = old
        · right
          subst isOld
          cases move : stays wanted with
          | true => exact ⟨not_swallowed_of_stays move, destination_of_stays move⟩
          | false =>
              -- a row that came to this key would be swallowed
              have earlier := isVisited other isEarlier
              have otherMoves : stays other = false := by
                by_contra stay
                rw [destination_of_stays (by simpa using stay)] at arrives
                exact earlier.ne arrives
              rw [destination_of_moves otherMoves] at arrives
              exact absurd ⟨otherMoves, arrives ▸ present, arrives ▸ earlier, arrives ▸ move⟩
                notSwallowed
        · exact .inl ⟨.inr ⟨other, isEarlier, notSwallowed, arrives⟩, isOld⟩
  · rintro (⟨⟨isKey, ahead⟩ | ⟨other, isOther, arrives⟩, different⟩ | arrives)
    · exact .inl ⟨isKey, List.not_mem_cons_of_ne_of_not_mem different ahead⟩
    · exact .inr ⟨other, List.mem_cons_of_mem old isOther, arrives⟩
    · exact .inr ⟨old, List.mem_cons_self, arrives⟩

namespace Dropping

variable (dropping : Dropping setter stays target base visited table) (present : old ∈ base.keys)
  (isVisited : ∀ other ∈ visited, other < old)

include dropping present isVisited

theorem old_mem_keys : old ∈ table.keys :=
  (dropping.keys old).mpr (.inl ⟨present, fun member => lt_irrefl old (isVisited old member)⟩)

theorem keep (stay : stays old = true) :
    Dropping setter stays target base (old :: visited) table := by
  obtain ⟨kept, isKept, isTable, keeps⟩ := dropping.rows
  constructor
  · refine ⟨kept, isKept, ?_, ?_⟩
    · rw [isTable]
      exact List.map_congr_left fun row _ => (carried_cons_of_stays stay row).symm
    · intro row isRow reason
      refine keeps row isRow (reason.imp_right ?_)
      exact fun ahead member => ahead (List.mem_cons_of_mem old member)
  · intro wanted
    have isKey := dropping.old_mem_keys present isVisited
    rw [occupied_cons_iff isVisited present, ← dropping.keys, destination_of_stays stay]
    by_cases isOld : wanted = old
    · simp [isOld, isKey, not_swallowed_of_stays stay]
    · simp [isOld, Ne.symm isOld]

omit dropping in
/-- The row at `old` is the only one whose key the visit changes. -/
theorem carried_cons_eq {kept : List Row} (isTable : table.rows =
      kept.map (carried setter stays target visited))
    (keeps : ∀ row ∈ base.rows, stays (key row) = true ∨ key row ∉ visited → row ∈ kept)
    (move : stays old = false) {row : Row} (isKept : row ∈ kept) :
    carried setter stays target (old :: visited) row =
      (if key (carried setter stays target visited row) = old then
        setter.set (target old) (carried setter stays target visited row)
      else carried setter stays target visited row) := by
  have ahead : old ∉ visited := fun member => lt_irrefl old (isVisited old member)
  obtain ⟨first, isFirst, firstOld⟩ := mem_keys_iff.mp present
  have firstKept := keeps first isFirst (.inr (firstOld ▸ ahead))
  have isOldIff := key_carried_eq_iff isTable ahead ⟨first, firstKept, firstOld⟩ isKept
  by_cases isOld : key row = old
  · have rowAhead : key row ∉ visited := by rwa [isOld]
    have rowLeaves : key row ∈ old :: visited ∧ stays (key row) = false := by simp [isOld, move]
    rw [if_pos (isOldIff.mpr isOld), carried_of_not_mem rowAhead, carried, if_pos rowLeaves, isOld]
  · rw [if_neg (isOld ∘ isOldIff.mp), key_carried_cons isOld]

theorem drop (moves : target old ≠ old) (move : stays old = false)
    (taken : target old ∈ table.keys) : Dropping setter stays target base (old :: visited)
      (table.deleteWhere fun row => key row = old) := by
  obtain ⟨kept, isKept, isTable, keeps⟩ := dropping.rows
  have ahead : old ∉ visited := fun member => lt_irrefl old (isVisited old member)
  obtain ⟨first, isFirst, firstOld⟩ := mem_keys_iff.mp present
  have firstKept := keeps first isFirst (.inr (firstOld ▸ ahead))
  constructor
  · refine ⟨kept.filter fun row => key row ≠ old, List.filter_sublist.trans isKept, ?_, ?_⟩
    · rw [rows_deleteWhere, isTable, List.filter_map]
      have isFiltered : ∀ row ∈ kept,
          ((fun row => !decide (key row = old)) ∘ carried setter stays target visited) row =
            decide (key row ≠ old) := by
        intro row member
        have isOldIff := key_carried_eq_iff isTable ahead ⟨first, firstKept, firstOld⟩ member
        simp [isOldIff]
      rw [List.filter_congr isFiltered]
      apply List.map_congr_left
      intro row member
      exact (key_carried_cons (of_decide_eq_true (List.mem_filter.mp member).2)).symm
    · intro row isRow reason
      have different : key row ≠ old := by
        rintro rfl
        rcases reason with stay | notVisited
        · rw [move] at stay
          cases stay
        · exact notVisited List.mem_cons_self
      have isKept := keeps row isRow (reason.imp_right (mt (List.mem_cons_of_mem old)))
      exact List.mem_filter.mpr ⟨isKept, decide_eq_true different⟩
  · intro wanted
    rw [mem_keys_deleteWhere, occupied_cons_iff isVisited present, ← dropping.keys,
      destination_of_moves move]
    refine (or_iff_left_of_imp ?_).symm
    rintro ⟨_, rfl⟩
    exact ⟨taken, moves⟩

theorem rekey (move : stays old = false) (free : target old ∉ table.keys) :
    Dropping setter stays target base (old :: visited)
      (table.rekey setter old (target old) free) := by
  obtain ⟨kept, isKept, isTable, keeps⟩ := dropping.rows
  have isKey := dropping.old_mem_keys present isVisited
  constructor
  · refine ⟨kept, isKept, ?_, ?_⟩
    · rw [rows_rekey, isTable, List.map_map]
      apply List.map_congr_left
      intro row member
      exact (carried_cons_eq present isVisited isTable keeps move member).symm
    · intro row isRow reason
      exact keeps row isRow (reason.imp_right (mt (List.mem_cons_of_mem old)))
  · intro wanted
    have notSwallowed : ¬ Swallowed stays target base.keys old := by
      rintro ⟨_, isTarget, later, _⟩
      apply free
      apply (dropping.keys _).mpr
      exact .inl ⟨isTarget, fun member => lt_asymm later (isVisited _ member)⟩
    rw [mem_keys_rekey setter free isKey, occupied_cons_iff isVisited present, ← dropping.keys,
      destination_of_moves move]
    simp only [notSwallowed, not_false_eq_true, true_and, eq_comm]

/-- One visit. -/
theorem step (moves : stays old = false → target old ≠ old) :
    Dropping setter stays target base (old :: visited)
      (table.moveOrDrop setter stays target old) := by
  unfold moveOrDrop
  split
  · next stay => exact dropping.keep present isVisited stay
  · next move =>
      have isMove : stays old = false := by simpa using move
      split
      · next taken => exact dropping.drop present isVisited (moves isMove) isMove taken
      · next free => exact dropping.rekey present isVisited isMove free

end Dropping

theorem Dropping.foldl (moves : ∀ old, stays old = false → target old ≠ old) {visits : List Key}
    (sorted : visits.Pairwise (· < ·)) (areKeys : ∀ old ∈ visits, old ∈ base.keys)
    (isVisited : ∀ other ∈ visited, ∀ old ∈ visits, other < old)
    (dropping : Dropping setter stays target base visited table) :
    Dropping setter stays target base (visits.reverse ++ visited)
      (visits.foldl (moveOrDrop setter stays target) table) := by
  induction visits generalizing visited table with
  | nil => exact dropping
  | cons old rest inductionHypothesis =>
      obtain ⟨isFirst, restSorted⟩ := List.pairwise_cons.mp sorted
      obtain ⟨present, restKeys⟩ := List.forall_mem_cons.mp areKeys
      have earlier : ∀ other ∈ visited, other < old := fun other isOther =>
        isVisited other isOther old List.mem_cons_self
      have next := dropping.step present earlier (moves old)
      rw [List.reverse_cons, List.append_assoc]
      apply inductionHypothesis restSorted restKeys _ next
      intro other isOther later isLater
      rcases List.mem_cons.mp isOther with rfl | isEarlier
      · exact isFirst later isLater
      · exact (earlier other isEarlier).trans (isFirst later isLater)

/-- Nothing has been visited yet. -/
theorem Dropping.refl (base : Table Row Key key) :
    Dropping setter stays target base [] base := by
  constructor
  · refine ⟨base.rows, List.Sublist.refl _, ?_, fun row isRow _ => isRow⟩
    apply (List.map_id _).symm.trans
    exact List.map_congr_left fun row _ => (carried_of_not_mem List.not_mem_nil).symm
  · intro wanted
    simp [Occupied]

/-- Every key is visited once, in the order of the keys. -/
structure VisitsAll (table : Table Row Key key) (visits : List Key) : Prop where
  sorted : visits.Pairwise (· < ·)
  mem_iff : ∀ wanted, wanted ∈ visits ↔ wanted ∈ table.keys

section All

variable (moves : ∀ old, stays old = false → target old ≠ old) {visits : List Key}
  (visitsAll : VisitsAll base visits)

include moves visitsAll

theorem dropping_of_visitsAll : Dropping setter stays target base visits.reverse
    (visits.foldl (moveOrDrop setter stays target) base) := by
  have none : Dropping setter stays target base [] base := .refl base
  have dropping := none.foldl moves visitsAll.sorted (fun old => (visitsAll.mem_iff old).mp)
    (by simp)
  rwa [List.append_nil] at dropping

/-- The rows that are kept go where they are to go; those that stay are kept. -/
theorem rows_of_drops : ∃ kept : List Row, kept.Sublist base.rows ∧
    (visits.foldl (moveOrDrop setter stays target) base).rows = (kept.map fun row =>
      if stays (key row) then row else setter.set (target (key row)) row) ∧
    ∀ row ∈ base.rows, stays (key row) = true → row ∈ kept := by
  obtain ⟨kept, isKept, isTable, keeps⟩ := (dropping_of_visitsAll moves visitsAll).rows
  refine ⟨kept, isKept, ?_, fun row isRow stay => keeps row isRow (.inl stay)⟩
  rw [isTable]
  apply List.map_congr_left
  intro row member
  have isKey : key row ∈ base.keys := mem_keys_iff.mpr ⟨row, isKept.subset member, rfl⟩
  have isVisit := (visitsAll.mem_iff (key row)).mpr isKey
  cases stay : stays (key row) with
  | true => simp [carried, stay]
  | false => simp [carried, stay, isVisit]

theorem mem_keys_of_drops {wanted : Key} :
    wanted ∈ (visits.foldl (moveOrDrop setter stays target) base).keys ↔
      Arrives stays target base.keys wanted := by
  rw [(dropping_of_visitsAll moves visitsAll).keys, Occupied, Arrives]
  simp only [List.mem_reverse, visitsAll.mem_iff]
  simp

/-- No row is dropped just when no two rows have one destination and none is swallowed. -/
theorem length_of_drops : (visits.foldl (moveOrDrop setter stays target) base).rows.length =
      base.rows.length ↔
    (∀ old ∈ base.keys, ¬ Swallowed stays target base.keys old) ∧
      ∀ old ∈ base.keys, ∀ other ∈ base.keys,
        destination stays target old = destination stays target other → old = other := by
  classical
  have isImage : (visits.foldl (moveOrDrop setter stays target) base).keys.toFinset =
      (base.keys.toFinset.filter fun old => ¬ Swallowed stays target base.keys old).image
        (destination stays target) := by
    ext wanted
    simp only [List.mem_toFinset, mem_keys_of_drops moves visitsAll, Arrives, Finset.mem_image,
      Finset.mem_filter, and_assoc]
  have isCount := congrArg Finset.card isImage
  rw [List.toFinset_card_of_nodup (unique_keys _), keys, List.length_map] at isCount
  have isBase : base.keys.toFinset.card = base.rows.length := by
    rw [List.toFinset_card_of_nodup (unique_keys _), keys, List.length_map]
  rw [isCount, ← isBase]
  have fewer := Finset.card_filter_le base.keys.toFinset
    fun old => ¬ Swallowed stays target base.keys old
  have fewerYet := Finset.card_image_le (f := destination stays target)
    (s := base.keys.toFinset.filter fun old => ¬ Swallowed stays target base.keys old)
  constructor
  · intro same
    have keepsAll : ∀ old ∈ base.keys.toFinset, ¬ Swallowed stays target base.keys old :=
      Finset.card_filter_eq_iff.mp (by omega)
    rw [Finset.filter_true_of_mem keepsAll, Finset.card_image_iff] at same
    refine ⟨fun old member => keepsAll old (List.mem_toFinset.mpr member), ?_⟩
    intro old member other otherMember isSame
    exact same (by simpa using member) (by simpa using otherMember) isSame
  · rintro ⟨keepsAll, apart⟩
    rw [Finset.filter_true_of_mem fun old member => keepsAll old (List.mem_toFinset.mp member),
      Finset.card_image_iff]
    intro old member other otherMember isSame
    exact apart old (by simpa using member) other (by simpa using otherMember) isSame

end All

omit [PartialOrder Key] in
theorem foldl_moveOrDrop_of_stays {visits : List Key} (stay : ∀ old ∈ visits, stays old = true) :
    visits.foldl (moveOrDrop setter stays target) table = table := by
  induction visits with
  | nil => rfl
  | cons old rest inductionHypothesis =>
      obtain ⟨firstStays, restStay⟩ := List.forall_mem_cons.mp stay
      rw [List.foldl_cons, moveOrDrop, if_pos firstStays]
      exact inductionHypothesis restStay

end Order

end Drops

/-! ## Rows that are left -/

section Leaves

variable [PartialOrder Key] [DecidableLT Key] (target : Key → Key)

/-- The row does not go to its target: it is there, or the place is or gets taken. -/
def Remains (keys : List Key) (old : Key) : Prop :=
  target old = old ∨ target old ∈ keys ∨ ∃ other ∈ keys, other < old ∧ target other = target old

instance (keys : List Key) (old : Key) : Decidable (Remains target keys old) :=
  inferInstanceAs (Decidable (_ ∨ _ ∨ ∃ other ∈ keys, _))

/-- The row as it is when some keys have been visited. -/
def settled (keys visited : List Key) (row : Row) : Row :=
  if key row ∈ visited ∧ ¬ Remains target keys (key row) then setter.set (target (key row)) row
  else row

variable {setter target} {base table : Table Row Key key} {visited : List Key} {old : Key}

theorem settled_of_not_mem {keys : List Key} {row : Row} (ahead : key row ∉ visited) :
    settled setter target keys visited row = row :=
  if_neg fun both => ahead both.1

theorem settled_of_remains {keys : List Key} {row : Row}
    (remains : Remains target keys (key row)) : settled setter target keys visited row = row :=
  if_neg fun both => both.2 remains

theorem settled_cons_of_ne {keys : List Key} {row : Row} (other : key row ≠ old) :
    settled setter target keys (old :: visited) row = settled setter target keys visited row := by
  simp [settled, other]

theorem settled_cons_of_remains {keys : List Key} (remains : Remains target keys old) (row : Row) :
    settled setter target keys (old :: visited) row = settled setter target keys visited row := by
  by_cases isOld : key row = old
  · rw [settled_of_remains (isOld ▸ remains), settled_of_remains (isOld ▸ remains)]
  · exact settled_cons_of_ne isOld

omit [DecidableLT Key] in
/-- Of the rows with one target that is free, the first moves there. -/
theorem exists_leaver {keys : List Key} {other : Key} (isKey : other ∈ keys)
    (free : target other ∉ keys) :
    ∃ first ∈ keys, first ≤ other ∧ target first = target other ∧ ¬ Remains target keys first := by
  obtain ⟨first, isFirst, isMinimal⟩ :=
    (keys.toFinset.filter fun old => target old = target other).exists_le_minimal
      (a := other) (by simp [isKey])
  obtain ⟨firstKey, firstTarget⟩ : first ∈ keys ∧ target first = target other := by
    simpa using isMinimal.prop
  refine ⟨first, firstKey, isFirst, firstTarget, ?_⟩
  rintro (same | isTarget | ⟨before, isBeforeKey, isBefore, beforeTarget⟩)
  · rw [← firstTarget, same] at free
    exact free firstKey
  · exact free (firstTarget ▸ isTarget)
  · refine isMinimal.not_lt ?_ isBefore
    simp [isBeforeKey, beforeTarget, firstTarget]

section Step

variable (idempotent : ∀ old, target (target old) = target old)
  (isTable : table.rows = base.rows.map (settled setter target base.keys visited))
  (present : old ∈ base.keys) (isVisited : ∀ other ∈ base.keys, other ∈ visited ↔ other < old)

include idempotent isTable present isVisited

omit present in
/-- The place of a row that moves is taken when it is visited just when it remains. -/
theorem taken_iff (moves : target old ≠ old) :
    target old ∈ table.keys ↔ Remains target base.keys old := by
  rw [mem_keys_iff, isTable]
  constructor
  · rintro ⟨_, isRow, isTarget⟩
    obtain ⟨row, isBase, rfl⟩ := List.mem_map.mp isRow
    rw [settled] at isTarget
    split at isTarget
    · next both =>
        rw [setter.key_set] at isTarget
        have isKey : key row ∈ base.keys := mem_keys_iff.mpr ⟨row, isBase, rfl⟩
        exact .inr (.inr ⟨key row, isKey, (isVisited _ isKey).mp both.1, isTarget⟩)
    · exact .inr (.inl (mem_keys_iff.mpr ⟨row, isBase, isTarget⟩))
  · have atTarget : target old ∈ base.keys → ∃ row ∈ base.rows.map
        (settled setter target base.keys visited), key row = target old := by
      intro isKey
      obtain ⟨row, isBase, isTarget⟩ := mem_keys_iff.mp isKey
      have remains : Remains target base.keys (key row) := by
        rw [isTarget]
        exact .inl (idempotent old)
      exact ⟨row, List.mem_map.mpr ⟨row, isBase, settled_of_remains remains⟩, isTarget⟩
    rintro (same | isKey | ⟨other, isKey, earlier, sameTarget⟩)
    · exact absurd same moves
    · exact atTarget isKey
    · by_cases isTargetKey : target old ∈ base.keys
      · exact atTarget isTargetKey
      · have free : target other ∉ base.keys := by rwa [sameTarget]
        obtain ⟨first, firstKey, isFirst, firstTarget, leaves⟩ := exists_leaver isKey free
        obtain ⟨row, isBase, rfl⟩ := mem_keys_iff.mp firstKey
        have rowVisited := (isVisited _ firstKey).mpr (isFirst.trans_lt earlier)
        refine ⟨_, List.mem_map_of_mem isBase, ?_⟩
        rw [settled, if_pos ⟨rowVisited, leaves⟩, setter.key_set, firstTarget, sameTarget]

/-- One visit. -/
theorem rows_of_moveOrLeave : (table.moveOrLeave setter target old).rows =
    base.rows.map (settled setter target base.keys (old :: visited)) := by
  unfold moveOrLeave
  split
  · next same =>
      rw [isTable]
      exact List.map_congr_left fun row _ => (settled_cons_of_remains (.inl same) row).symm
  · next moves =>
      have takenIff := taken_iff idempotent isTable isVisited moves
      split
      · next taken =>
          rw [isTable]
          exact List.map_congr_left fun row _ =>
            (settled_cons_of_remains (takenIff.mp taken) row).symm
      · next free =>
          have ahead : old ∉ visited := fun member =>
            lt_irrefl old ((isVisited old present).mp member)
          obtain ⟨first, isFirst, firstOld⟩ := mem_keys_iff.mp present
          have firstSettled : settled setter target base.keys visited first = first :=
            settled_of_not_mem (firstOld ▸ ahead)
          rw [rows_rekey, isTable, List.map_map]
          apply List.map_congr_left
          intro row isRow
          rw [Function.comp]
          by_cases isOld : key row = old
          · have rowAhead : key row ∉ visited := by rwa [isOld]
            have rowLeaves : key row ∈ old :: visited ∧ ¬ Remains target base.keys (key row) := by
              rw [isOld]
              exact ⟨List.mem_cons_self, free ∘ takenIff.mpr⟩
            rw [settled_of_not_mem rowAhead, if_pos isOld, settled, if_pos rowLeaves, isOld]
          · rw [settled_cons_of_ne isOld, if_neg]
            intro same
            have isFirst := eq_of_key_change_eq isTable isRow isFirst
              (by rw [same, firstSettled, firstOld])
            exact isOld (isFirst ▸ firstOld)

end Step

section All

variable (idempotent : ∀ old, target (target old) = target old)

include idempotent

theorem rows_of_foldl_moveOrLeave {visits : List Key} (sorted : visits.Pairwise (· < ·))
    (areKeys : ∀ old ∈ visits, old ∈ base.keys)
    (isSplit : ∀ other ∈ base.keys, other ∈ visited ∨ other ∈ visits)
    (isVisited : ∀ other ∈ visited, ∀ old ∈ visits, other < old)
    (isTable : table.rows = base.rows.map (settled setter target base.keys visited)) :
    (visits.foldl (moveOrLeave setter target) table).rows =
      base.rows.map (settled setter target base.keys (visits.reverse ++ visited)) := by
  induction visits generalizing visited table with
  | nil => exact isTable
  | cons old rest inductionHypothesis =>
      obtain ⟨isFirst, restSorted⟩ := List.pairwise_cons.mp sorted
      obtain ⟨present, restKeys⟩ := List.forall_mem_cons.mp areKeys
      have visitedIff : ∀ other ∈ base.keys, other ∈ visited ↔ other < old := by
        intro other isKey
        refine ⟨fun member => isVisited other member old List.mem_cons_self, ?_⟩
        intro earlier
        refine (isSplit other isKey).resolve_right ?_
        intro later
        rcases List.mem_cons.mp later with rfl | later
        · exact lt_irrefl other earlier
        · exact lt_asymm earlier (isFirst other later)
      have next := rows_of_moveOrLeave idempotent isTable present visitedIff
      rw [List.reverse_cons, List.append_assoc]
      apply inductionHypothesis restSorted restKeys _ _ next
      · intro other isKey
        rcases isSplit other isKey with member | member
        · exact .inl (List.mem_cons_of_mem old member)
        · rcases List.mem_cons.mp member with rfl | later
          · exact .inl List.mem_cons_self
          · exact .inr later
      · intro other isOther later isLater
        rcases List.mem_cons.mp isOther with rfl | isEarlier
        · exact isFirst later isLater
        · exact isVisited other isEarlier later (List.mem_cons_of_mem old isLater)

/-- Every row that does not remain goes to its target. -/
theorem rows_of_leaves {visits : List Key} (visitsAll : VisitsAll base visits) :
    (visits.foldl (moveOrLeave setter target) base).rows = base.rows.map fun row =>
      if Remains target base.keys (key row) then row else setter.set (target (key row)) row := by
  have none : base.rows = base.rows.map (settled setter target base.keys []) :=
    (List.map_id _).symm.trans
      (List.map_congr_left fun row _ => (settled_of_not_mem List.not_mem_nil).symm)
  rw [rows_of_foldl_moveOrLeave idempotent visitsAll.sorted
    (fun old => (visitsAll.mem_iff old).mp) (fun other => .inr ∘ (visitsAll.mem_iff other).mpr)
    (by simp) none, List.append_nil]
  apply List.map_congr_left
  intro row isRow
  have isVisit := (visitsAll.mem_iff (key row)).mpr (mem_keys_iff.mpr ⟨row, isRow, rfl⟩)
  by_cases remains : Remains target base.keys (key row)
  · rw [settled_of_remains remains, if_pos remains]
  · rw [settled, if_pos ⟨List.mem_reverse.mpr isVisit, remains⟩, if_neg remains]

theorem mem_keys_of_leaves {visits : List Key} (visitsAll : VisitsAll base visits) {wanted : Key} :
    wanted ∈ (visits.foldl (moveOrLeave setter target) base).keys ↔
      ∃ old ∈ base.keys, (if Remains target base.keys old then old else target old) = wanted := by
  rw [keys, rows_of_leaves idempotent visitsAll, List.map_map, keys, List.mem_map]
  simp only [List.mem_map, exists_exists_and_eq_and]
  refine exists_congr fun row => and_congr_right fun _ => ?_
  rw [Function.comp]
  split
  · rfl
  · rw [setter.key_set]

/-- Every target ends up occupied. -/
theorem target_mem_keys {visits : List Key} (visitsAll : VisitsAll base visits) {old : Key}
    (isKey : old ∈ base.keys) :
    target old ∈ (visits.foldl (moveOrLeave setter target) base).keys := by
  rw [mem_keys_of_leaves idempotent visitsAll]
  by_cases isTarget : target old ∈ base.keys
  · exact ⟨target old, isTarget, if_pos (.inl (idempotent old))⟩
  · obtain ⟨first, firstKey, _, sameTarget, leaves⟩ := exists_leaver isKey isTarget
    exact ⟨first, firstKey, by rw [if_neg leaves, sameTarget]⟩

/-- The rows of a table that was visited have nowhere to go. -/
theorem settled_of_leaves {visits : List Key} (visitsAll : VisitsAll base visits) {old : Key}
    (isKey : old ∈ (visits.foldl (moveOrLeave setter target) base).keys) :
    target old = old ∨ target old ∈ (visits.foldl (moveOrLeave setter target) base).keys := by
  obtain ⟨first, firstKey, isOld⟩ := (mem_keys_of_leaves idempotent visitsAll).mp isKey
  split at isOld
  · right
    rw [← isOld]
    exact target_mem_keys idempotent visitsAll firstKey
  · left
    rw [← isOld, idempotent]

end All

omit [DecidableLT Key] [PartialOrder Key] in
theorem foldl_moveOrLeave_of_settled {visits : List Key}
    (areSettled : ∀ old ∈ visits, target old = old ∨ target old ∈ table.keys) :
    visits.foldl (moveOrLeave setter target) table = table := by
  induction visits with
  | nil => rfl
  | cons old rest inductionHypothesis =>
      obtain ⟨firstSettled, restSettled⟩ := List.forall_mem_cons.mp areSettled
      have unchanged : table.moveOrLeave setter target old = table := by
        unfold moveOrLeave
        split
        · rfl
        · next moves => rw [dif_pos (firstSettled.resolve_left moves)]
      rw [List.foldl_cons, unchanged]
      exact inductionHypothesis restSettled

end Leaves

end Table

end Tables
