import Yggterm.RowSets.Model
import Yggterm.RowSets.Placement

/-!
# When the outline follows the seats

Rows go under their heads one by one, and a row that already holds others is refused.
So the seats are followed exactly when no row that has a head comes after a row it is
the head of.
-/

namespace Yggterm.RowSets

open Runs

universe u

variable {Row : Type u} [DecidableEq Row]

theorem inserts_of_ok {sets : RowSets Row} (wellFormed : sets.WellFormed) {head member : Row}
    {index : Option Nat} (accepted : (sets.insertMember head member index).1 = .ok ()) :
    Inserts sets (sets.insertMember head member index).2 head member :=
  inserts_of_accepted wellFormed accepted

/-! ## Seats -/

/-- The first of the candidates that some row holds, and the first row that holds it. -/
def seatHead (seated : List (Row × List Nat)) (seat : List Nat) : Option Row :=
  (headSeatCandidates seat).findSome? (headBySeat seated)

/-- A `.0` seat is above the others of its level, and below those a level up. -/
def seatRank (seat : List Nat) : Nat :=
  2 * seat.length + if seat.getLast? = some 0 then 0 else 1

theorem seatRank_lt_of_candidate {seat candidate : List Nat}
    (isCandidate : candidate ∈ headSeatCandidates seat) : seatRank candidate < seatRank seat := by
  rw [headSeatCandidates] at isCandidate
  split at isCandidate
  · simp at isCandidate
  · next long =>
      have parentLength : seat.dropLast.length + 1 = seat.length := by
        rw [List.length_dropLast]
        omega
      have parentBelow : seatRank seat.dropLast < seatRank seat := by
        rw [seatRank, seatRank]
        split <;> split <;> omega
      dsimp only at isCandidate
      split at isCandidate
      · rw [List.mem_singleton.mp isCandidate]
        exact parentBelow
      · next other =>
          rcases List.mem_cons.mp isCandidate with rfl | isParent
          · have notZero : seat.getLast? ≠ some 0 := by
              intro zeroLast
              have split := List.dropLast_append_getLast? 0 zeroLast
              exact other split
            rw [seatRank, seatRank, if_neg notZero, List.length_append]
            simp
            omega
          · rw [List.mem_singleton.mp isParent]
            exact parentBelow

omit [DecidableEq Row] in
theorem exists_holder_of_seatHead {seated : List (Row × List Nat)} {seat : List Nat} {head : Row}
    (isHead : seatHead seated seat = some head) :
    ∃ holder ∈ seated, holder.1 = head ∧ seatRank holder.2 < seatRank seat := by
  obtain ⟨candidate, isCandidate, found⟩ := List.exists_of_findSome?_eq_some isHead
  obtain ⟨holder, isHolder, isPath⟩ := Option.map_eq_some_iff.mp found
  have isSeat : holder.2 = candidate := by simpa using List.find?_some isHolder
  exact ⟨holder, List.mem_of_find?_eq_some isHolder, isPath,
    isSeat ▸ seatRank_lt_of_candidate isCandidate⟩

/-! ## What is claimed of the outline, and when it holds -/

def Accepts (sets : RowSets Row) (insert : Row × Row) : Prop :=
  (sets.insertMember insert.1 insert.2 none).1 = .ok ()

/-- Every seated row is under its seat's head, or under none if its seat has none, and no
insertion is refused. -/
def FollowsSeats (rows : List (Row × Option (List Char))) : Prop :=
  let seated := seatedRows rows
  (∀ row ∈ seated, (outlineRowSets rows).parentOf row.1 = seatHead seated row.2) ∧
    Guarded seatInsert Accepts empty (seatInserts seated RowArrangement.default)

/-- No row is its own head, rows with one path agree on their head, and a row that has a
head comes before every row it is the head of. -/
structure HeadsListedFirst (seated : List (Row × List Nat)) : Prop where
  different : ∀ row ∈ seated, seatHead seated row.2 ≠ some row.1
  agree : ∀ row ∈ seated, ∀ other ∈ seated, row.1 = other.1 →
    seatHead seated row.2 = seatHead seated other.2
  ordered : ∀ before row after, seated = before ++ row :: after → seatHead seated row.2 ≠ none →
    ∀ earlier ∈ before, seatHead seated earlier.2 ≠ some row.1

/-- The insertions for some of the rows, when no row is its own head. -/
def insertsOf (seated rows : List (Row × List Nat)) : List (Row × Row) :=
  rows.filterMap fun row => (seatHead seated row.2).map fun head => (head, row.1)

theorem findSome?_filter_ne {Seat : Type} (find : Seat → Option Row) (path : Row)
    (candidates : List Seat) (different : candidates.findSome? find ≠ some path) :
    candidates.findSome? (fun candidate => (find candidate).filter fun head => head ≠ path) =
      candidates.findSome? find := by
  induction candidates with
  | nil => rfl
  | cons candidate rest inductionHypothesis =>
      rw [List.findSome?_cons] at different
      rw [List.findSome?_cons, List.findSome?_cons]
      cases found : find candidate with
      | none =>
          rw [found] at different
          exact inductionHypothesis different
      | some head =>
          rw [found] at different
          have other : head ≠ path := fun same => different (congrArg some same)
          simp [Option.filter, other]

theorem seatInserts_eq {seated : List (Row × List Nat)}
    (different : ∀ row ∈ seated, seatHead seated row.2 ≠ some row.1) :
    seatInserts seated RowArrangement.default = insertsOf seated seated := by
  apply List.filterMap_congr
  intro row member
  have unanswered : (RowArrangement.default : RowArrangement Row).answered row.1 = false := by
    simp [RowArrangement.answered, RowArrangement.default, parentOf, empty]
  have sameHead : headFor seated row = seatHead seated row.2 :=
    findSome?_filter_ne _ _ _ (different row member)
  simp [unanswered, sameHead]

/-! ## Placing rows one by one -/

/-- The rows done so far are under their heads, and nothing else is under any. -/
structure Placed (seated rows : List (Row × List Nat)) (sets : RowSets Row) : Prop where
  wellFormed : sets.WellFormed
  parent_iff : ∀ {path head}, sets.parentOf path = some head ↔
    ∃ row ∈ rows, row.1 = path ∧ seatHead seated row.2 = some head

theorem placed_nil (seated : List (Row × List Nat)) : Placed seated [] (empty : RowSets Row) where
  wellFormed := wellFormed_empty
  parent_iff := by simp [parentOf, empty]

section

variable {seated rows : List (Row × List Nat)} {sets : RowSets Row}
  (agree : ∀ row ∈ seated, ∀ other ∈ seated, row.1 = other.1 →
    seatHead seated row.2 = seatHead seated other.2)

include agree

theorem Placed.parentOf_eq (placed : Placed seated rows sets) (known : rows ⊆ seated)
    {row : Row × List Nat} (member : row ∈ rows) :
    sets.parentOf row.1 = seatHead seated row.2 := by
  cases isHead : seatHead seated row.2 with
  | some head => exact placed.parent_iff.mpr ⟨row, member, rfl, isHead⟩
  | none =>
      apply Option.eq_none_iff_forall_ne_some.mpr
      intro head isParent
      obtain ⟨other, inRows, samePath, otherHead⟩ := placed.parent_iff.mp isParent
      rw [agree other (known inRows) row (known member) samePath, isHead] at otherHead
      cases otherHead

theorem Placed.accept (placed : Placed seated rows sets) (known : rows ⊆ seated)
    {row : Row × List Nat} (inSeated : row ∈ seated) {head : Row}
    (isHead : seatHead seated row.2 = some head) (accepted : Accepts sets (head, row.1)) :
    Placed seated (rows ++ [row]) (seatInsert sets (head, row.1)) := by
  have inserts := inserts_of_ok placed.wellFormed accepted
  refine ⟨inserts.wellFormed placed.wellFormed, ?_⟩
  intro path upper
  change (sets.insertMember head row.1 none).2.parentOf path = some upper ↔ _
  rw [inserts.parentOf_eq]
  by_cases isPath : path = row.1
  · rw [if_pos isPath]
    constructor
    · intro sameHead
      exact ⟨row, by simp, isPath.symm, isHead.trans sameHead⟩
    · intro ⟨other, member, samePath, otherHead⟩
      have inOther : other ∈ seated := by
        rcases List.mem_append.mp member with inRows | isRow
        · exact known inRows
        · exact List.mem_singleton.mp isRow ▸ inSeated
      rw [← otherHead, ← isHead]
      exact agree row inSeated other inOther (isPath.symm.trans samePath.symm)
  · rw [if_neg isPath, placed.parent_iff]
    constructor
    · intro ⟨other, inRows, samePath, otherHead⟩
      exact ⟨other, List.mem_append_left _ inRows, samePath, otherHead⟩
    · intro ⟨other, member, samePath, otherHead⟩
      rcases List.mem_append.mp member with inRows | isRow
      · exact ⟨other, inRows, samePath, otherHead⟩
      · rw [List.mem_singleton.mp isRow] at samePath
        exact absurd samePath.symm isPath

omit agree in
theorem Placed.skip (placed : Placed seated rows sets) {row : Row × List Nat}
    (headless : seatHead seated row.2 = none) : Placed seated (rows ++ [row]) sets := by
  refine ⟨placed.wellFormed, ?_⟩
  intro path upper
  rw [placed.parent_iff]
  constructor
  · intro ⟨other, inRows, samePath, otherHead⟩
    exact ⟨other, List.mem_append_left _ inRows, samePath, otherHead⟩
  · intro ⟨other, member, samePath, otherHead⟩
    rcases List.mem_append.mp member with inRows | isRow
    · exact ⟨other, inRows, samePath, otherHead⟩
    · rw [List.mem_singleton.mp isRow, headless] at otherHead
      cases otherHead

/-- Each seat's head has a lower seat, so no head is below one of its rows. -/
theorem Placed.not_reaches (placed : Placed seated rows sets) (known : rows ⊆ seated)
    {row : Row × List Nat} (inSeated : row ∈ seated) {head : Row}
    (isHead : seatHead seated row.2 = some head) :
    ¬ Relation.ReflTransGen sets.HeldBy head row.1 := by
  -- a row of the upper path has a seat no higher than any row of the lower path
  have falls : ∀ {lower upper : Row}, Relation.ReflTransGen sets.HeldBy lower upper →
      ∀ below ∈ seated, below.1 = lower →
        ∃ above ∈ seated, above.1 = upper ∧ seatRank above.2 ≤ seatRank below.2 := by
    intro lower upper reaches
    induction reaches with
    | refl => exact fun below member isLower => ⟨below, member, isLower, le_rfl⟩
    | tail _ held inductionHypothesis =>
        intro below member isLower
        obtain ⟨middle, inMiddle, isMiddle, notHigher⟩ := inductionHypothesis below member isLower
        obtain ⟨other, inRows, samePath, otherHead⟩ := placed.parent_iff.mp held
        have middleHead := agree middle inMiddle other (known inRows) (isMiddle.trans samePath.symm)
        obtain ⟨holder, inHolder, isHolder, lowerSeat⟩ :=
          exists_holder_of_seatHead (middleHead.trans otherHead)
        exact ⟨holder, inHolder, isHolder, lowerSeat.le.trans notHigher⟩
  intro reaches
  have noSeat : ∀ rank, ∀ other ∈ seated, other.1 = row.1 → seatRank other.2 = rank → False := by
    intro rank
    induction rank using Nat.strong_induction_on with
    | _ rank inductionHypothesis =>
        intro other member samePath isRank
        have otherHead := (agree other member row inSeated samePath).trans isHead
        obtain ⟨holder, inHolder, isHolder, lowerSeat⟩ := exists_holder_of_seatHead otherHead
        obtain ⟨again, inAgain, isAgain, notHigher⟩ := falls reaches holder inHolder isHolder
        exact inductionHypothesis (seatRank again.2) (by omega) again inAgain isAgain rfl
  exact noSeat _ row inSeated rfl rfl

theorem placed_run (known : rows ⊆ seated)
    (accepted : Guarded seatInsert Accepts empty (insertsOf seated rows)) :
    Placed seated rows (run seatInsert empty (insertsOf seated rows)) := by
  induction rows using List.reverseRecOn with
  | nil => exact placed_nil seated
  | append_singleton rows row inductionHypothesis =>
      have rowsKnown : rows ⊆ seated := fun other member => known (List.mem_append_left _ member)
      have inSeated : row ∈ seated := known (by simp)
      rw [insertsOf, List.filterMap_append] at accepted ⊢
      have parts := guarded_append.mp accepted
      have placed := inductionHypothesis rowsKnown parts.1
      rw [run_append]
      cases isHead : seatHead seated row.2 with
      | none =>
          simp only [List.filterMap_cons, isHead, Option.map_none, List.filterMap_nil, run_nil]
          exact placed.skip isHead
      | some head =>
          simp only [List.filterMap_cons, isHead, Option.map_some, List.filterMap_nil, run_cons,
            run_nil]
          have last := parts.2
          simp only [List.filterMap_cons, isHead, Option.map_some, List.filterMap_nil] at last
          exact placed.accept agree rowsKnown inSeated isHead last.1

end

/-- A row that has a head and comes before every row it heads is accepted. -/
theorem HeadsListedFirst.accepts {seated before after : List (Row × List Nat)}
    (listed : HeadsListedFirst seated) {row : Row × List Nat}
    (split : seated = before ++ row :: after) {sets : RowSets Row}
    (placed : Placed seated before sets) {head : Row}
    (isHead : seatHead seated row.2 = some head) : Accepts sets (head, row.1) := by
  have inSeated : row ∈ seated := by simp [split]
  have known : before ⊆ seated := fun other member => by simp [split, member]
  apply (insertMember_ok_iff placed.wellFormed head row.1 none).mpr
  refine ⟨?_, placed.not_reaches listed.agree known inSeated isHead, ?_⟩
  · intro same
    exact listed.different row inSeated (isHead.trans (congrArg some same))
  · apply List.eq_nil_iff_forall_not_mem.mpr
    intro member inMembers
    obtain ⟨earlier, inBefore, _, earlierHead⟩ :=
      placed.parent_iff.mp (placed.wellFormed.parent_iff.mpr inMembers)
    exact listed.ordered before row after split (by simp [isHead]) earlier inBefore earlierHead

theorem HeadsListedFirst.guarded {seated before after : List (Row × List Nat)}
    (listed : HeadsListedFirst seated) (split : seated = before ++ after)
    {sets : RowSets Row} (placed : Placed seated before sets) :
    Guarded seatInsert Accepts sets (insertsOf seated after) := by
  induction after generalizing before sets with
  | nil => trivial
  | cons row rest inductionHypothesis =>
      have inSeated : row ∈ seated := by simp [split]
      have known : before ⊆ seated := fun other member => by simp [split, member]
      have splitNext : seated = (before ++ [row]) ++ rest := by simp [split]
      rw [insertsOf, List.filterMap_cons]
      cases isHead : seatHead seated row.2 with
      | none => exact inductionHypothesis splitNext (placed.skip isHead)
      | some head =>
          have accepted := listed.accepts split placed isHead
          exact ⟨accepted, inductionHypothesis splitNext
            (placed.accept listed.agree known inSeated isHead accepted)⟩

/-- While nothing is refused, a row that has a head heads no row before it. -/
theorem not_heads_earlier {seated before after : List (Row × List Nat)}
    (agree : ∀ row ∈ seated, ∀ other ∈ seated, row.1 = other.1 →
      seatHead seated row.2 = seatHead seated other.2)
    {row : Row × List Nat} (split : seated = before ++ row :: after)
    (accepted : Guarded seatInsert Accepts empty (insertsOf seated seated)) {head : Row}
    (isHead : seatHead seated row.2 = some head) {earlier : Row × List Nat}
    (inBefore : earlier ∈ before) : seatHead seated earlier.2 ≠ some row.1 := by
  intro earlierHead
  have known : before ⊆ seated := fun other member => by simp [split, member]
  have parts : insertsOf seated seated =
      insertsOf seated before ++ (head, row.1) :: insertsOf seated after := by
    calc insertsOf seated seated = insertsOf seated (before ++ row :: after) :=
          congrArg (insertsOf seated) split
      _ = insertsOf seated before ++ insertsOf seated (row :: after) := List.filterMap_append
      _ = insertsOf seated before ++ (head, row.1) :: insertsOf seated after := by
          rw [insertsOf, insertsOf, List.filterMap_cons, isHead]
          rfl
  rw [parts] at accepted
  obtain ⟨acceptedBefore, acceptedRow, _⟩ := guarded_append.mp accepted
  have placed := placed_run agree known acceptedBefore
  have childless := ((insertMember_ok_iff placed.wellFormed head row.1 none).mp acceptedRow).2.2
  have isMember := placed.wellFormed.parent_iff.mp
    (placed.parent_iff.mpr ⟨earlier, inBefore, rfl, earlierHead⟩)
  rw [childless] at isMember
  cases isMember

theorem wellFormed_outline (rows : List (Row × Option (List Char))) :
    (outlineRowSets rows).WellFormed := by
  have preserved : ∀ (sets : RowSets Row) (insert : Row × Row), sets.WellFormed →
      (seatInsert sets insert).WellFormed :=
    fun sets insert wellFormed => wellFormed.insertMemberWithChildren insert.1 insert.2 none false
  exact run_invariant preserved wellFormed_empty _

theorem FollowsSeats.headsListedFirst {rows : List (Row × Option (List Char))}
    (follows : FollowsSeats rows) : HeadsListedFirst (seatedRows rows) := by
  obtain ⟨parents, accepted⟩ := follows
  have wellFormed := wellFormed_outline rows
  have different : ∀ row ∈ seatedRows rows, seatHead (seatedRows rows) row.2 ≠ some row.1 := by
    intro row member isOwn
    exact wellFormed.acyclic row.1 (.single ((parents row member).trans isOwn))
  have agree : ∀ row ∈ seatedRows rows, ∀ other ∈ seatedRows rows, row.1 = other.1 →
      seatHead (seatedRows rows) row.2 = seatHead (seatedRows rows) other.2 := by
    intro row member other otherMember samePath
    rw [← parents row member, ← parents other otherMember, samePath]
  refine ⟨different, agree, ?_⟩
  intro before row after split hasHead earlier inBefore earlierHead
  obtain ⟨head, isHead⟩ := Option.ne_none_iff_exists'.mp hasHead
  rw [seatInserts_eq different] at accepted
  exact not_heads_earlier agree split accepted isHead inBefore earlierHead

/-- The seats are followed, whatever order the rows come in, exactly when every row that
has a head comes before the rows it is the head of (and no path names two places). -/
theorem followsSeats_iff (rows : List (Row × Option (List Char))) :
    FollowsSeats rows ↔ HeadsListedFirst (seatedRows rows) := by
  constructor
  · exact FollowsSeats.headsListedFirst
  · intro listed
    have accepted :
        Guarded seatInsert Accepts empty (insertsOf (seatedRows rows) (seatedRows rows)) :=
      listed.guarded (List.nil_append _).symm (placed_nil _)
    have placed := placed_run listed.agree (List.Subset.refl _) accepted
    have isOutline : outlineRowSets rows = run seatInsert empty
        (insertsOf (seatedRows rows) (seatedRows rows)) := by
      rw [← seatInserts_eq listed.different]
      rfl
    refine ⟨?_, ?_⟩
    · intro row member
      rw [isOutline]
      exact placed.parentOf_eq listed.agree (List.Subset.refl _) member
    · rw [seatInserts_eq listed.different]
      exact accepted

/-- Listed from the innermost seat outwards, `6.1` already holds `6.1.1` when it is to go
under `6.0`, and is refused. -/
theorem not_followsSeats_inside_out :
    ¬ ∀ rows : List (Char × Option (List Char)),
      ((seatedRows rows).map Prod.snd).Nodup → FollowsSeats rows := by
  intro follows
  let rows : List (Char × Option (List Char)) :=
    [('a', some "6.1.1".toList), ('b', some "6.1".toList), ('c', some "6.0".toList)]
  have isSeated : seatedRows rows = [('a', [6, 1, 1]), ('b', [6, 1]), ('c', [6, 0])] := by decide
  have listed := (follows rows (by rw [isSeated]; decide)).headsListedFirst
  rw [isSeated] at listed
  exact listed.ordered [('a', [6, 1, 1])] ('b', [6, 1]) [('c', [6, 0])] rfl (by decide)
    ('a', [6, 1, 1]) (by decide) (by decide)

end Yggterm.RowSets
