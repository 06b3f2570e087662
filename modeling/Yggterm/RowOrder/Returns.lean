import Yggterm.RowOrder.Reconcile

/-!
# Leaving and returning

A row that leaves the live set keeps its slot in the ledger, and `placement_for` names the
live row it returns behind.
-/

namespace Yggterm.RowOrder

open Anchors Duplicates Runs

universe u v

variable {Scope : Type u} {Row : Type v} [DecidableEq Scope] [DecidableEq Row]

/-- Where a row that enters the live set should land. -/
inductive RowLedgerPlacement (Row : Type v) where
  | front
  | afterLive (anchor : Row)
  | unknown
  deriving DecidableEq

/-- The placement among the rows of one scope, if it knows the row. -/
def placementIn (rows : List Row) (path : Row) (live : Row → Bool) :
    Option (RowLedgerPlacement Row) :=
  (rows.idxOf? path).map fun index =>
    match (rows.take index).reverse.find? fun anchor => anchor ≠ path && live anchor with
    | some anchor => .afterLive anchor
    | none => .front

/-- `placement_for`; the shared scope answers for a row that the scope does not know. -/
def RowOrderLedger.placementFor (ledger : RowOrderLedger Scope Row) (shared scope : Scope)
    (path : Row) (live : Row → Bool) : RowLedgerPlacement Row :=
  ((placementIn (ledger.scopeRows scope) path live).or
    (placementIn (ledger.scopeRows shared) path live)).getD .unknown

/-- `move_live_session_after`; without an anchor to the front, behind a missing one to the
end. -/
def moveLiveSessionAfter (liveOrder : List Row) (key : Row) (anchor : Option Row) : List Row :=
  if key ∈ liveOrder then
    let others := liveOrder.erase key
    let insertAt :=
      match anchor with
      | some anchor => ((others.idxOf? anchor).map (· + 1)).getD others.length
      | none => 0
    others.insertIdx insertAt key
  else liveOrder

/-- A row enters the live order, in front when nothing is remembered of it. -/
def enter (liveOrder : List Row) (row : Row) : RowLedgerPlacement Row → List Row
  | .afterLive anchor => moveLiveSessionAfter (row :: liveOrder) row (some anchor)
  | .front => moveLiveSessionAfter (row :: liveOrder) row none
  | .unknown => row :: liveOrder

inductive Change (Row : Type v) where
  | leaves (row : Row)
  | returns (row : Row)

/-- The ledger and the live order. -/
structure Sidebar (Scope : Type u) (Row : Type v) where
  ledger : RowOrderLedger Scope Row
  liveOrder : List Row

/-- The live order is recorded. -/
def Sidebar.recordAs (sidebar : Sidebar Scope Row) (scope : Scope) (liveOrder : List Row) :
    Sidebar Scope Row :=
  ⟨(sidebar.ledger.recordLiveOrder scope liveOrder).1, liveOrder⟩

/-- A row leaves, or one that is not live returns; each is recorded. -/
def Sidebar.change (shared scope : Scope) (sidebar : Sidebar Scope Row) :
    Change Row → Sidebar Scope Row
  | .leaves row => sidebar.recordAs scope (sidebar.liveOrder.erase row)
  | .returns row =>
      if row ∈ sidebar.liveOrder then sidebar
      else
        let placement := sidebar.ledger.placementFor shared scope row (isLive sidebar.liveOrder)
        sidebar.recordAs scope (enter sidebar.liveOrder row placement)

/-! ## Entering -/

omit [DecidableEq Row] in
theorem find?_reverse (rows : List Row) (isAnchor : Row → Bool) :
    rows.reverse.find? isAnchor = (rows.filter isAnchor).getLast? := by
  rw [← List.head?_filter, List.filter_reverse, List.head?_reverse]

theorem enter_front (liveOrder : List Row) (row : Row) :
    enter liveOrder row .front = row :: liveOrder := by
  rw [enter, moveLiveSessionAfter, if_pos List.mem_cons_self, List.erase_cons_head]
  rfl

theorem idxOf?_append_self {before : List Row} {row : Row} (fresh : row ∉ before)
    (after : List Row) : (before ++ row :: after).idxOf? row = some before.length := by
  apply List.idxOf?_eq_some_iff.mpr
  refine ⟨by simp, by simp, ?_⟩
  intro place within same
  rw [List.getElem_append_left within] at same
  exact fresh (same ▸ List.getElem_mem within)

omit [DecidableEq Row] in
theorem insertIdx_behind (before : List Row) (anchor : Row) (after : List Row) (row : Row) :
    (before ++ anchor :: after).insertIdx (before.length + 1) row =
      before ++ anchor :: row :: after := by
  induction before with
  | nil => rfl
  | cons first rest inductionHypothesis => simpa using inductionHypothesis

theorem enter_afterLive {before : List Row} {anchor : Row} (fresh : anchor ∉ before)
    (after : List Row) (row : Row) :
    enter (before ++ anchor :: after) row (.afterLive anchor) =
      before ++ anchor :: row :: after := by
  rw [enter, moveLiveSessionAfter, if_pos List.mem_cons_self, List.erase_cons_head]
  dsimp only
  rw [idxOf?_append_self fresh, Option.map_some, Option.getD_some, insertIdx_behind]

section

variable {rows liveOrder : List Row} (nodup : rows.Nodup) (part : liveOrder.Sublist rows)
  {row : Row} (inRows : row ∈ rows) (away : row ∉ liveOrder)

include nodup part inRows away

/-- A row that the scope remembers enters at its place among the rows there. -/
theorem enter_placed : ∃ placement, placementIn rows row (isLive liveOrder) = some placement ∧
    (enter liveOrder row placement).Sublist rows ∧
    (enter liveOrder row placement).Perm (row :: liveOrder) := by
  have own := filter_of_sublist nodup part fun other => isLive_eq_true_iff
  have notLive : isLive liveOrder row = false := isLive_eq_false_iff.mpr away
  obtain ⟨before, after, rfl⟩ := List.append_of_mem inRows
  have fresh : row ∉ before := fun member =>
    List.disjoint_of_nodup_append nodup member List.mem_cons_self
  rw [List.filter_append, List.filter_cons_of_neg (by simp [notLive])] at own
  have anchorIs : (before.reverse.find? fun anchor => anchor ≠ row && isLive liveOrder anchor) =
      (before.filter (isLive liveOrder)).getLast? := by
    rw [find?_reverse]
    congr 1
    apply List.filter_congr
    intro other member
    have different : other ≠ row := fun same => fresh (same ▸ member)
    simp [different]
  rw [placementIn, idxOf?_append_self fresh, Option.map_some, List.take_left' rfl, anchorIs]
  have earlier : (before.filter (isLive liveOrder)).Sublist before := List.filter_sublist
  have later : (after.filter (isLive liveOrder)).Sublist after := List.filter_sublist
  generalize before.filter (isLive liveOrder) = left at *
  generalize after.filter (isLive liveOrder) = right at *
  subst own
  rcases List.eq_nil_or_concat left with rfl | ⟨front, anchor, rfl⟩
  · refine ⟨.front, rfl, ?_, ?_⟩
    · rw [enter_front, List.nil_append]
      exact (later.cons_cons row).trans (List.sublist_append_right before _)
    · rw [enter_front]
  · rw [List.concat_eq_append] at *
    have liveNodup := part.nodup nodup
    rw [List.append_assoc, List.singleton_append] at liveNodup ⊢
    have freshAnchor : anchor ∉ front := fun member =>
      List.disjoint_of_nodup_append liveNodup member List.mem_cons_self
    refine ⟨.afterLive anchor, by rw [List.getLast?_concat], ?_, ?_⟩
    · rw [enter_afterLive freshAnchor, List.append_cons]
      exact earlier.append (later.cons_cons row)
    · rw [enter_afterLive freshAnchor, List.append_cons, List.append_cons front anchor right]
      exact List.perm_middle

end

/-! ## Runs -/

section

variable (ledger : RowOrderLedger Scope Row) (shared scope : Scope) {liveOrder : List Row}

/-- The sidebar when this order has been recorded. -/
def recordedSidebar (liveOrder : List Row) : Sidebar Scope Row :=
  ⟨(ledger.recordLiveOrder scope liveOrder).1, liveOrder⟩

/-- While rows leave and return, the ledger stays as it is, and the live rows are part of what
it remembers, in its order. -/
structure Keeps (remembered : RowOrderLedger Scope Row) (sidebar : Sidebar Scope Row) : Prop where
  ledger : sidebar.ledger = remembered
  part : sidebar.liveOrder.Sublist (remembered.scopeRows scope)

variable {ledger scope} {remembered : RowOrderLedger Scope Row} {sidebar : Sidebar Scope Row}
  (nodup : (remembered.scopeRows scope).Nodup)
  (short : (remembered.scopeRows scope).length ≤ maxRowsPerScope)

include nodup short

theorem Keeps.recordAs (keeps : Keeps scope remembered sidebar) {next : List Row}
    (part : next.Sublist (remembered.scopeRows scope)) :
    Keeps scope remembered (sidebar.recordAs scope next) := by
  obtain rfl := keeps.ledger
  have unchanged := recordLiveOrder_of_sublist nodup short part
  exact ⟨congrArg Prod.fst unchanged, part⟩

theorem Keeps.leaves (keeps : Keeps scope remembered sidebar) (row : Row) :
    Keeps scope remembered (sidebar.change shared scope (.leaves row)) :=
  keeps.recordAs nodup short (List.erase_sublist.trans keeps.part)

/-- A remembered row that returns is live, and no other row changes. -/
theorem Keeps.returns (keeps : Keeps scope remembered sidebar) {row : Row}
    (known : row ∈ remembered.scopeRows scope) (away : row ∉ sidebar.liveOrder) :
    Keeps scope remembered (sidebar.change shared scope (.returns row)) ∧
      (sidebar.change shared scope (.returns row)).liveOrder.Perm (row :: sidebar.liveOrder) := by
  obtain ⟨placement, isPlacement, part, moved⟩ := enter_placed nodup keeps.part known away
  have isPlaced : sidebar.ledger.placementFor shared scope row (isLive sidebar.liveOrder) =
      placement := by
    rw [RowOrderLedger.placementFor, keeps.ledger, isPlacement]
    rfl
  rw [Sidebar.change, if_neg away]
  dsimp only
  rw [isPlaced]
  exact ⟨keeps.recordAs nodup short part, moved⟩

/-- All rows that leave are gone, whatever the order in which they leave. -/
theorem Keeps.run_leaves (keeps : Keeps scope remembered sidebar) (gone : List Row) :
    Keeps scope remembered (run (Sidebar.change shared scope) sidebar (gone.map .leaves)) ∧
      (run (Sidebar.change shared scope) sidebar (gone.map .leaves)).liveOrder =
        sidebar.liveOrder.diff gone := by
  induction gone generalizing sidebar with
  | nil => exact ⟨keeps, rfl⟩
  | cons row rest inductionHypothesis =>
      rw [List.map_cons, run_cons, List.diff_cons]
      exact inductionHypothesis (keeps.leaves shared nodup short row)

theorem Keeps.run_returns (keeps : Keeps scope remembered sidebar) {back : List Row}
    (backNodup : back.Nodup) (known : ∀ row ∈ back, row ∈ remembered.scopeRows scope)
    (away : ∀ row ∈ back, row ∉ sidebar.liveOrder) :
    Keeps scope remembered (run (Sidebar.change shared scope) sidebar (back.map .returns)) ∧
      (run (Sidebar.change shared scope) sidebar (back.map .returns)).liveOrder.Perm
        (back ++ sidebar.liveOrder) := by
  induction back generalizing sidebar with
  | nil => exact ⟨keeps, List.Perm.refl _⟩
  | cons row rest inductionHypothesis =>
      obtain ⟨fresh, restNodup⟩ := List.nodup_cons.mp backNodup
      obtain ⟨stillKeeps, moved⟩ := keeps.returns shared nodup short
        (known row List.mem_cons_self) (away row List.mem_cons_self)
      have restAway : ∀ other ∈ rest,
          other ∉ (sidebar.change shared scope (.returns row)).liveOrder := by
        intro other member isBack
        rcases List.mem_cons.mp (moved.mem_iff.mp isBack) with rfl | wasLive
        · exact fresh member
        · exact away other (List.mem_cons_of_mem _ member) wasLive
      obtain ⟨lastKeeps, all⟩ := inductionHypothesis stillKeeps restNodup
        (fun other member => known other (List.mem_cons_of_mem _ member)) restAway
      rw [List.map_cons, run_cons]
      refine ⟨lastKeeps, all.trans ?_⟩
      exact (moved.append_left rest).trans List.perm_middle

end

/-- Rows of a recorded live order within the cap that leave and return, in any two orders, come
back to where they were. -/
theorem leaves_and_returns (ledger : RowOrderLedger Scope Row) (shared scope : Scope)
    {liveOrder gone back : List Row} (liveNodup : liveOrder.Nodup)
    (fits : liveOrder.length ≤ maxRowsPerScope) (goneNodup : gone.Nodup)
    (wereLive : ∀ row ∈ gone, row ∈ liveOrder) (same : back.Perm gone) :
    (run (Sidebar.change shared scope) (recordedSidebar ledger scope liveOrder)
      (gone.map .leaves ++ back.map .returns)).liveOrder = liveOrder := by
  have nodup := nodup_scopeRows_recordLiveOrder ledger scope liveNodup
  have live := filter_scopeRows_recordLiveOrder ledger scope liveNodup
  rw [List.take_of_length_le fits] at live
  have short : ((ledger.recordLiveOrder scope liveOrder).1.scopeRows scope).length ≤
      maxRowsPerScope := by
    rw [scopeRows_recordLiveOrder]
    exact (capRows_keeps rfl).2.1
  have part : liveOrder.Sublist ((ledger.recordLiveOrder scope liveOrder).1.scopeRows scope) := by
    conv_lhs => rw [← live]
    exact List.filter_sublist
  have initially : Keeps scope (ledger.recordLiveOrder scope liveOrder).1
      (recordedSidebar ledger scope liveOrder) := ⟨rfl, part⟩
  obtain ⟨keeps, left⟩ := initially.run_leaves shared nodup short gone
  change _ = liveOrder.diff gone at left
  rw [run_append]
  have away : ∀ row ∈ back, row ∉ (run (Sidebar.change shared scope)
      (recordedSidebar ledger scope liveOrder) (gone.map .leaves)).liveOrder := by
    intro row member
    rw [left]
    exact fun stays => (liveNodup.mem_sdiff_iff.mp stays).2 (same.mem_iff.mp member)
  obtain ⟨lastKeeps, all⟩ := keeps.run_returns shared nodup short
    (same.nodup_iff.mpr goneNodup)
    (fun row member => part.subset (wereLive row (same.mem_iff.mp member))) away
  -- both orders are parts of what is remembered, with the same rows
  have sameRows : ∀ row, row ∈ (run (Sidebar.change shared scope)
      (run (Sidebar.change shared scope) (recordedSidebar ledger scope liveOrder)
        (gone.map .leaves)) (back.map .returns)).liveOrder ↔ row ∈ liveOrder := by
    intro row
    rw [all.mem_iff, left, List.mem_append, liveNodup.mem_sdiff_iff, same.mem_iff]
    constructor
    · rintro (wasGone | ⟨isLive, _⟩)
      · exact wereLive row wasGone
      · exact isLive
    · intro isLive
      by_cases wasGone : row ∈ gone
      · exact .inl wasGone
      · exact .inr ⟨isLive, wasGone⟩
  have own := filter_of_sublist nodup lastKeeps.part fun row =>
    isLive_eq_true_iff.trans (sameRows row).symm
  exact own.symm.trans live

/-- The middle one of three rows leaves, then the first; the first returns first. -/
theorem leaves_and_returns_three :
    (run (Sidebar.change () ()) (recordedSidebar (fun _ => none) () ['a', 'b', 'c'])
      (['b', 'a'].map .leaves ++ ['a', 'b'].map .returns)).liveOrder = ['a', 'b', 'c'] :=
  leaves_and_returns (fun _ => none) () () (by decide) (by decide) (by decide) (by simp)
    (List.Perm.swap 'b' 'a' [])

/-! ## Over the cap -/

/-- A recording adds the live rows to what is remembered, and no others. -/
theorem mem_of_mem_recordLiveOrder {ledger : RowOrderLedger Scope Row} {scope : Scope}
    {liveOrder : List Row} (liveNodup : liveOrder.Nodup) {row : Row}
    (known : row ∈ (ledger.recordLiveOrder scope liveOrder).1.scopeRows scope) :
    row ∈ liveOrder ∨ row ∈ ledger.scopeRows scope := by
  rw [scopeRows_recordLiveOrder] at known
  have inNext := (nextRows_perm _ liveNodup).mem_iff.mp ((capRows_keeps rfl).1.subset known)
  apply (List.mem_append.mp inNext).imp_right
  intro absent
  exact List.mem_eraseDups.mp (List.mem_filter.mp absent).1

/-- A row that no scope asked remembers returns to the front. -/
theorem returns_in_front {shared scope : Scope} {sidebar : Sidebar Scope Row} {row : Row}
    (unknown : row ∉ sidebar.ledger.scopeRows scope)
    (unknownShared : row ∉ sidebar.ledger.scopeRows shared) (away : row ∉ sidebar.liveOrder) :
    (sidebar.change shared scope (.returns row)).liveOrder = row :: sidebar.liveOrder := by
  have nowhere : ∀ rows : List Row, row ∉ rows →
      placementIn rows row (isLive sidebar.liveOrder) = none := by
    intro rows absent
    rw [placementIn, List.idxOf?_eq_none_iff.mpr absent]
    rfl
  rw [Sidebar.change, if_neg away, RowOrderLedger.placementFor, nowhere _ unknown,
    nowhere _ unknownShared]
  rfl

/-- Of a live order over the cap the rows over it are not remembered. -/
theorem returns_in_front_of_over (ledger : RowOrderLedger Scope Row) (scope : Scope)
    {liveOrder : List Row} (liveNodup : liveOrder.Nodup) {row : Row}
    (isOver : row ∈ liveOrder.drop maxRowsPerScope) :
    (run (Sidebar.change scope scope) (recordedSidebar ledger scope liveOrder)
      ([row].map .leaves ++ [row].map .returns)).liveOrder = row :: liveOrder.erase row := by
  have forgotten := isKnown_eq_false_iff.mp (isKnown_eq_false_of_over liveNodup
    (filter_scopeRows_recordLiveOrder ledger scope liveNodup) isOver)
  have away : row ∉ liveOrder.erase row := liveNodup.not_mem_erase
  have unknown : row ∉ ((recordedSidebar ledger scope liveOrder).change scope scope
      (.leaves row)).ledger.scopeRows scope := by
    intro known
    rcases mem_of_mem_recordLiveOrder (liveNodup.erase row) known with stays | remembered
    · exact away stays
    · exact forgotten remembered
  exact returns_in_front unknown unknown away

theorem not_returned_over_cap :
    ¬ ∀ (ledger : RowOrderLedger Unit Nat) (liveOrder gone back : List Nat),
      liveOrder.Nodup → gone.Nodup → (∀ row ∈ gone, row ∈ liveOrder) → back.Perm gone →
        (run (Sidebar.change () ()) (recordedSidebar ledger () liveOrder)
          (gone.map .leaves ++ back.map .returns)).liveOrder = liveOrder := by
  intro restored
  have liveNodup : (List.range (maxRowsPerScope + 1)).Nodup := List.nodup_range
  have isOver : ∀ count, count ∈ (List.range (count + 1)).drop count := by
    intro count
    rw [List.range_succ, List.drop_left' List.length_range]
    exact List.mem_singleton_self _
  have returned := restored (fun _ => none) _ [maxRowsPerScope] [maxRowsPerScope] liveNodup
    (List.nodup_singleton _)
    (fun row member => List.mem_singleton.mp member ▸ List.self_mem_range_succ)
    (List.Perm.refl _)
  rw [returns_in_front_of_over _ () liveNodup (isOver maxRowsPerScope)] at returned
  have sameHead := congrArg List.head? returned
  rw [List.head?_cons, List.head?_range] at sameHead
  exact absurd (Option.some.inj sameHead) (by decide)

end Yggterm.RowOrder
