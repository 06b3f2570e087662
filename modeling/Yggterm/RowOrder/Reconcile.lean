import Yggterm.Library.Newest
import Yggterm.RowOrder.Ledger

/-!
# Reconciling an order with the ledger

After a rebuild the rows that the ledger remembers are put back into its order; the
rows it has never seen follow the known row they stood behind.
-/

namespace Yggterm.RowOrder

open Anchors Duplicates Newest

universe u v

variable {Scope : Type u} {Row : Type v} [DecidableEq Row]

/-- What the loop over the current order has collected. -/
structure Split (Row : Type v) where
  known : List Row
  frontUnknown : List Row
  /-- A row without an entry has nothing behind it. -/
  unknownAfter : Row → List Row
  seen : List Row
  lastKnown : Option Row

def Split.empty : Split Row := ⟨[], [], fun _ => [], [], none⟩

def Split.visit (remembered : List Row) (split : Split Row) (row : Row) : Split Row :=
  if row ∈ split.seen then split
  else if row ∈ remembered then
    { split with
      seen := row :: split.seen
      known := split.known ++ [row]
      lastKnown := some row }
  else
    match split.lastKnown with
    | some anchor =>
        { split with
          seen := row :: split.seen
          unknownAfter :=
            Function.update split.unknownAfter anchor (split.unknownAfter anchor ++ [row]) }
    | none =>
        { split with seen := row :: split.seen, frontUnknown := split.frontUnknown ++ [row] }

/-- By `remembered_rank`: the first place of a row in the ledger. -/
def byRank (remembered : List Row) (row other : Row) : Bool :=
  decide (remembered.idxOf row ≤ remembered.idxOf other)

def reconcileOrderWithRemembered (current remembered : List Row) : List Row :=
  if current = [] ∨ remembered = [] then current
  else
    let split := current.foldl (Split.visit remembered) Split.empty
    split.frontUnknown ++ (split.known.mergeSort (byRank remembered)).flatMap fun row =>
      row :: split.unknownAfter row

/-! ## The loop -/

section

variable {remembered : List Row}

/-- The known rows are the anchors. -/
def isKnown (remembered : List Row) (row : Row) : Bool := decide (row ∈ remembered)

theorem isKnown_eq_true_iff {row : Row} : isKnown remembered row = true ↔ row ∈ remembered := by
  simp [isKnown]

theorem isKnown_eq_false_iff {row : Row} : isKnown remembered row = false ↔ row ∉ remembered := by
  simp [isKnown]

/-- What the loop adds over rows that are new to it. -/
structure Collects (remembered : List Row) (split : Split Row) (later : List Row)
    (after : Split Row) : Prop where
  known : after.known = split.known ++ later.filter (isKnown remembered)
  inFront : after.frontUnknown = split.frontUnknown ++
    if split.lastKnown = none then front (isKnown remembered) later else []
  behindKnown : ∀ anchor ∈ remembered, after.unknownAfter anchor = split.unknownAfter anchor ++
    (if split.lastKnown = some anchor then front (isKnown remembered) later else []) ++
    behind (isKnown remembered) anchor later

theorem Collects.nothing (split : Split Row) : Collects remembered split [] split where
  known := by simp
  inFront := by simp [front]
  behindKnown := by simp [front, behind]

variable {split after : Split Row} {row : Row} {later : List Row} (fresh : row ∉ split.seen)

include fresh

theorem visit_of_known (known : row ∈ remembered) : split.visit remembered row =
    { split with
      seen := row :: split.seen
      known := split.known ++ [row]
      lastKnown := some row } := by
  rw [Split.visit, if_neg fresh, if_pos known]

theorem Collects.of_known (known : row ∈ remembered) (notLater : row ∉ later)
    (collects : Collects remembered (split.visit remembered row) later after) :
    Collects remembered split (row :: later) after := by
  have isAnchor : isKnown remembered row = true := isKnown_eq_true_iff.mpr known
  rw [visit_of_known fresh known] at collects
  constructor
  · rw [collects.known, List.filter_cons_of_pos isAnchor, List.append_assoc]
    rfl
  · rw [collects.inFront, front_cons_of_anchor isAnchor, ite_self]
    rfl
  · intro anchor inLedger
    rw [collects.behindKnown anchor inLedger, front_cons_of_anchor isAnchor, ite_self,
      List.append_nil, List.append_assoc]
    congr 1
    by_cases same : row = anchor
    · subst same
      rw [if_pos rfl, behind_cons_self, behind_eq_nil notLater, List.append_nil]
    · have other : some row ≠ some anchor := fun equal => same (Option.some.inj equal)
      rw [if_neg other, behind_cons_of_ne same]
      rfl

theorem visit_of_front (unknown : row ∉ remembered) (last : split.lastKnown = none) :
    split.visit remembered row =
      { split with seen := row :: split.seen, frontUnknown := split.frontUnknown ++ [row] } := by
  rw [Split.visit, if_neg fresh, if_neg unknown, last]

theorem Collects.of_front (unknown : row ∉ remembered) (last : split.lastKnown = none)
    (collects : Collects remembered (split.visit remembered row) later after) :
    Collects remembered split (row :: later) after := by
  have notAnchor : isKnown remembered row = false := isKnown_eq_false_iff.mpr unknown
  rw [visit_of_front fresh unknown last] at collects
  constructor
  · rw [collects.known, List.filter_cons_of_neg (by simp [notAnchor])]
  · rw [collects.inFront, if_pos last, if_pos last, front_cons_of_not notAnchor,
      List.append_assoc]
    rfl
  · intro anchor inLedger
    have different : row ≠ anchor := fun same => unknown (same ▸ inLedger)
    rw [collects.behindKnown anchor inLedger, behind_cons_of_ne different, last]
    rfl

theorem visit_of_behind (unknown : row ∉ remembered) {anchor : Row}
    (last : split.lastKnown = some anchor) : split.visit remembered row =
      { split with
        seen := row :: split.seen
        unknownAfter :=
          Function.update split.unknownAfter anchor (split.unknownAfter anchor ++ [row]) } := by
  rw [Split.visit, if_neg fresh, if_neg unknown, last]

theorem Collects.of_behind (unknown : row ∉ remembered) {last : Row}
    (isLast : split.lastKnown = some last)
    (collects : Collects remembered (split.visit remembered row) later after) :
    Collects remembered split (row :: later) after := by
  have notAnchor : isKnown remembered row = false := isKnown_eq_false_iff.mpr unknown
  rw [visit_of_behind fresh unknown isLast] at collects
  constructor
  · rw [collects.known, List.filter_cons_of_neg (by simp [notAnchor])]
  · rw [collects.inFront, isLast]
    rfl
  · intro anchor inLedger
    have different : row ≠ anchor := fun same => unknown (same ▸ inLedger)
    rw [collects.behindKnown anchor inLedger, behind_cons_of_ne different,
      front_cons_of_not notAnchor, isLast]
    by_cases same : last = anchor
    · subst same
      rw [if_pos rfl, if_pos rfl]
      dsimp only
      rw [Function.update_self, List.append_assoc (split.unknownAfter last)]
      rfl
    · have other : some last ≠ some anchor := fun equal => same (Option.some.inj equal)
      rw [if_neg other, if_neg other]
      dsimp only
      rw [Function.update_of_ne (Ne.symm same)]

end

theorem seen_visit {remembered : List Row} {split : Split Row} {row : Row}
    (fresh : row ∉ split.seen) : (split.visit remembered row).seen = row :: split.seen := by
  by_cases known : row ∈ remembered
  · rw [visit_of_known fresh known]
  · cases last : split.lastKnown with
    | none => rw [visit_of_front fresh known last]
    | some anchor => rw [visit_of_behind fresh known last]

theorem foldl_visit (remembered : List Row) (rows : List Row) (split : Split Row) :
    Collects remembered split (unseen split.seen rows)
      (rows.foldl (Split.visit remembered) split) := by
  induction rows generalizing split with
  | nil => exact Collects.nothing split
  | cons row rest inductionHypothesis =>
      rw [List.foldl_cons]
      by_cases repeated : row ∈ split.seen
      · have same : split.visit remembered row = split := if_pos repeated
        rw [unseen_cons_of_mem repeated, same]
        exact inductionHypothesis split
      · have collects := inductionHypothesis (split.visit remembered row)
        rw [seen_visit repeated] at collects
        rw [unseen_cons_of_not_mem repeated]
        by_cases known : row ∈ remembered
        · apply Collects.of_known repeated known _ collects
          intro later
          exact not_mem_of_mem_unseen later List.mem_cons_self
        · cases last : split.lastKnown with
          | none => exact Collects.of_front repeated known last collects
          | some anchor => exact Collects.of_behind repeated known last collects

/-- The loop's result, by the first occurrences. -/
theorem foldl_visit_empty (remembered current : List Row) :
    let split := current.foldl (Split.visit remembered) Split.empty
    split.known = current.eraseDups.filter (isKnown remembered) ∧
      split.frontUnknown = front (isKnown remembered) current.eraseDups ∧
      ∀ anchor ∈ remembered,
        split.unknownAfter anchor = behind (isKnown remembered) anchor current.eraseDups := by
  have distinct : unseen Split.empty.seen current = current.eraseDups := unseen_empty current
  have collects := foldl_visit remembered current Split.empty
  rw [distinct] at collects
  exact ⟨collects.known, collects.inFront, collects.behindKnown⟩

/-! ## The order of the ledger -/

section

variable {remembered : List Row} (nodup : remembered.Nodup)

include nodup

theorem pairwise_rank :
    remembered.Pairwise fun row other => remembered.idxOf row ≤ remembered.idxOf other := by
  apply List.pairwise_iff_getElem.mpr
  intro index later inRows laterInRows before
  rw [nodup.idxOf_getElem, nodup.idxOf_getElem]
  exact Nat.le_of_lt before

/-- The ledger and the order have the same rows in common. -/
theorem filter_known_perm (current : List Row) :
    (current.eraseDups.filter (isKnown remembered)).Perm (remembered.filter (· ∈ current)) := by
  have knownNodup := (nodup_eraseDups current).filter (isKnown remembered)
  apply (List.perm_ext_iff_of_nodup knownNodup (nodup.filter _)).mpr
  intro row
  rw [List.mem_filter, List.mem_filter, isKnown_eq_true_iff, List.mem_eraseDups,
    decide_eq_true_iff, and_comm]

theorem mergeSort_known (current : List Row) :
    (current.eraseDups.filter (isKnown remembered)).mergeSort (byRank remembered) =
      remembered.filter (· ∈ current) := by
  have sameRows := filter_known_perm nodup current
  have sorted := pairwise_mergeSort_byKey (fun row => remembered.idxOf row)
    (current.eraseDups.filter (isKnown remembered))
  have permuted := (List.mergeSort_perm _ (byRank remembered)).trans sameRows
  have ranked := (pairwise_rank nodup).sublist (List.filter_sublist (p := (· ∈ current)))
  apply List.Perm.eq_of_pairwise _ sorted ranked permuted
  intro row other _ inLedger below above
  have sameRank : remembered.idxOf row = remembered.idxOf other := Nat.le_antisymm below above
  exact ((List.idxOf_inj (List.mem_of_mem_filter inLedger)).mp sameRank.symm).symm

end

/-- The merge is a weave: the known rows of the order, as in the ledger, and each
unknown row behind the known row it was behind. -/
theorem reconcileOrderWithRemembered_eq_weave {current remembered : List Row}
    (nodup : remembered.Nodup) (told : remembered ≠ [] ∨ current.Nodup) :
    reconcileOrderWithRemembered current remembered =
      weave (isKnown remembered) (remembered.filter (· ∈ current)) current.eraseDups := by
  rw [reconcileOrderWithRemembered]
  split
  · next nothing =>
      rcases nothing with rfl | rfl
      · simp [weave, front]
      · have distinct : current.Nodup := told.resolve_left (fun some => some rfl)
        rw [eraseDups_of_nodup distinct]
        have allInFront : current.takeWhile (fun row => !isKnown [] row) = current := by
          apply List.takeWhile_eq_self_iff.mpr
          intro row _
          rfl
        rw [weave, front, allInFront]
        simp
  · obtain ⟨known, inFront, behindKnown⟩ := foldl_visit_empty remembered current
    dsimp only
    rw [known, mergeSort_known nodup, inFront, weave]
    congr 1
    apply List.flatMap_congr
    intro anchor member
    rw [behindKnown anchor (List.mem_of_mem_filter member)]

/-- The known rows of a merge are those that the ledger and the order have in common. -/
theorem anchored_filter (current remembered : List Row) :
    ∀ anchor ∈ remembered.filter (· ∈ current), isKnown remembered anchor = true := by
  intro anchor member
  exact isKnown_eq_true_iff.mpr (List.mem_of_mem_filter member)

/-- What a stable merge keeps. -/
structure MergesStably (current remembered merged : List Row) : Prop where
  perm : merged.Perm current.eraseDups
  knownRows : merged.filter (isKnown remembered) = remembered.filter (· ∈ current)
  frontRows : front (isKnown remembered) merged = front (isKnown remembered) current.eraseDups
  rowsBehind : ∀ anchor ∈ current, anchor ∈ remembered →
    behind (isKnown remembered) anchor merged =
      behind (isKnown remembered) anchor current.eraseDups
  again : reconcileOrderWithRemembered merged remembered = merged

theorem mergesStably {current remembered : List Row} (nodup : remembered.Nodup)
    (told : remembered ≠ [] ∨ current.Nodup) :
    MergesStably current remembered (reconcileOrderWithRemembered current remembered) := by
  have isWeave := reconcileOrderWithRemembered_eq_weave nodup told
  have anchored := anchored_filter current remembered
  have anchorsNodup : (remembered.filter (· ∈ current)).Nodup := nodup.filter _
  have permuted : (reconcileOrderWithRemembered current remembered).Perm current.eraseDups := by
    have known : ∀ row ∈ current.eraseDups, isKnown remembered row = true →
        row ∈ remembered.filter (· ∈ current) := by
      intro row member isKnownRow
      have inCurrent : row ∈ current := List.mem_eraseDups.mp member
      exact List.mem_filter.mpr ⟨isKnown_eq_true_iff.mp isKnownRow, decide_eq_true inCurrent⟩
    have woven := weave_perm anchored anchorsNodup (nodup_eraseDups current) known
    have split := List.filter_append_perm (isKnown remembered) current.eraseDups
    rw [isWeave]
    exact (woven.trans ((filter_known_perm nodup current).symm.append_right _)).trans split
  have knownRows : (reconcileOrderWithRemembered current remembered).filter (isKnown remembered) =
      remembered.filter (· ∈ current) := by
    rw [isWeave, filter_weave anchored]
  refine ⟨permuted, knownRows, ?_, ?_, ?_⟩
  · rw [isWeave, front_weave anchored]
  · intro anchor inCurrent inLedger
    rw [isWeave]
    apply behind_weave anchored anchorsNodup
    exact List.mem_filter.mpr ⟨inLedger, decide_eq_true inCurrent⟩
  · -- the merge is woven from its own known rows
    have mergedNodup := permuted.nodup_iff.mpr (nodup_eraseDups current)
    have sameKnown : remembered.filter (· ∈ reconcileOrderWithRemembered current remembered) =
        (reconcileOrderWithRemembered current remembered).filter (isKnown remembered) := by
      rw [knownRows]
      apply List.filter_congr
      intro row _
      apply decide_eq_decide.mpr
      rw [permuted.mem_iff, List.mem_eraseDups]
    rw [reconcileOrderWithRemembered_eq_weave nodup (Or.inr mergedNodup),
      eraseDups_of_nodup mergedNodup, sameKnown]
    exact weave_filter_self mergedNodup

/-! ## After a recording -/

section

variable {liveOrder rows shuffled : List Row} (liveNodup : liveOrder.Nodup)
  (kept : rows.filter (isLive liveOrder) = liveOrder.take maxRowsPerScope)

include kept

theorem isKnown_eq_true_of_kept {row : Row} (member : row ∈ liveOrder.take maxRowsPerScope) :
    isKnown rows row = true := by
  rw [← kept] at member
  exact isKnown_eq_true_iff.mpr (List.mem_of_mem_filter member)

include liveNodup

theorem isKnown_eq_false_of_over {row : Row} (member : row ∈ liveOrder.drop maxRowsPerScope) :
    isKnown rows row = false := by
  apply isKnown_eq_false_iff.mpr
  intro inRows
  have live := isLive_eq_true_iff.mpr (List.mem_of_mem_drop member)
  have isKept : row ∈ liveOrder.take maxRowsPerScope := kept ▸ List.mem_filter.mpr ⟨inRows, live⟩
  exact List.disjoint_take_drop liveNodup (Nat.le_refl _) isKept member

/-- The live order comes back from a permutation in which the rows over the cap follow
the last row within it. -/
theorem reconcile_kept_iff (rowsNodup : rows.Nodup) (same : shuffled.Perm liveOrder) :
    reconcileOrderWithRemembered shuffled rows = liveOrder ↔
      liveOrder.drop (maxRowsPerScope - 1) <:+: shuffled := by
  have shuffledNodup : shuffled.Nodup := same.nodup_iff.mpr liveNodup
  have common : rows.filter (· ∈ shuffled) = liveOrder.take maxRowsPerScope := by
    rw [← kept]
    apply List.filter_congr
    intro row _
    exact decide_eq_decide.mpr same.mem_iff
  have anchored : ∀ row ∈ liveOrder.take maxRowsPerScope, isKnown rows row = true :=
    fun row member => isKnown_eq_true_of_kept kept member
  rw [reconcileOrderWithRemembered_eq_weave rowsNodup (Or.inr shuffledNodup),
    eraseDups_of_nodup shuffledNodup, common]
  rcases Nat.lt_or_ge (maxRowsPerScope - 1) liveOrder.length with full | fits
  · have last : liveOrder.drop (maxRowsPerScope - 1) =
        liveOrder[maxRowsPerScope - 1] :: liveOrder.drop maxRowsPerScope :=
      List.drop_eq_getElem_cons full
    have within : liveOrder.take maxRowsPerScope =
        liveOrder.take (maxRowsPerScope - 1) ++ [liveOrder[maxRowsPerScope - 1]] :=
      (List.take_append_getElem full).symm
    have parts : liveOrder = liveOrder.take (maxRowsPerScope - 1) ++
        liveOrder[maxRowsPerScope - 1] :: liveOrder.drop maxRowsPerScope := by
      rw [← last, List.take_append_drop]
    rw [within] at anchored
    have woven := weave_eq_iff_infix anchored
      (fun row member => isKnown_eq_false_of_over liveNodup kept member) (parts ▸ same)
      shuffledNodup
    rwa [← within, ← parts, ← last] at woven
  · have all : liveOrder.take maxRowsPerScope = liveOrder :=
      List.take_of_length_le (fits.trans (Nat.sub_le _ _))
    rw [all] at anchored ⊢
    rw [weave_of_all_anchors anchored same shuffledNodup, List.drop_of_length_le fits]
    exact iff_of_true rfl List.nil_infix

end

section

variable [DecidableEq Scope] (ledger : RowOrderLedger Scope Row) (scope : Scope)
  {liveOrder : List Row} (liveNodup : liveOrder.Nodup)

include liveNodup

theorem nodup_scopeRows_recordLiveOrder :
    ((ledger.recordLiveOrder scope liveOrder).1.scopeRows scope).Nodup := by
  rw [scopeRows_recordLiveOrder]
  exact (capRows_keeps rfl).1.nodup (nodup_nextRows _ liveNodup)

/-- Of the live rows the ledger keeps the first, up to the cap. -/
theorem filter_scopeRows_recordLiveOrder :
    ((ledger.recordLiveOrder scope liveOrder).1.scopeRows scope).filter (isLive liveOrder) =
      liveOrder.take maxRowsPerScope := by
  rw [scopeRows_recordLiveOrder, (capRows_keeps rfl).2.2, filter_nextRows _ liveNodup]

theorem reconcile_recorded_iff {shuffled : List Row} (same : shuffled.Perm liveOrder) :
    reconcileOrderWithRemembered shuffled
        ((ledger.recordLiveOrder scope liveOrder).1.scopeRows scope) = liveOrder ↔
      liveOrder.drop (maxRowsPerScope - 1) <:+: shuffled :=
  reconcile_kept_iff liveNodup (filter_scopeRows_recordLiveOrder ledger scope liveNodup)
    (nodup_scopeRows_recordLiveOrder ledger scope liveNodup) same

end

/-- A merge against a ledger that knows something, or of an order without duplicates, is
stable; and after a recording the recorded order comes back from exactly those of its
permutations in which the rows from the last within the cap on follow one another. -/
theorem reconcile_merges_and_restores [DecidableEq Scope] (current : List Row)
    {remembered : List Row} (nodup : remembered.Nodup)
    (told : remembered ≠ [] ∨ current.Nodup) (ledger : RowOrderLedger Scope Row) (scope : Scope)
    {liveOrder shuffled : List Row} (liveNodup : liveOrder.Nodup)
    (same : shuffled.Perm liveOrder) :
    MergesStably current remembered (reconcileOrderWithRemembered current remembered) ∧
      (reconcileOrderWithRemembered shuffled
          ((ledger.recordLiveOrder scope liveOrder).1.scopeRows scope) = liveOrder ↔
        liveOrder.drop (maxRowsPerScope - 1) <:+: shuffled) :=
  ⟨mergesStably nodup told, reconcile_recorded_iff ledger scope liveNodup same⟩

theorem reconcile_merges_and_restores_small :
    MergesStably ['x', 'b', 'y', 'a', 'b'] ['a', 'b']
        (reconcileOrderWithRemembered ['x', 'b', 'y', 'a', 'b'] ['a', 'b']) ∧
      reconcileOrderWithRemembered ['b', 'a']
        ((RowOrderLedger.recordLiveOrder (fun _ : Unit => none) () ['a', 'b']).1.scopeRows ()) =
          ['a', 'b'] := by
  have both := reconcile_merges_and_restores ['x', 'b', 'y', 'a', 'b']
    (by decide : ['a', 'b'].Nodup) (Or.inl (by decide)) (fun _ : Unit => none) ()
    (by decide : ['a', 'b'].Nodup) (List.Perm.swap 'a' 'b' [])
  exact ⟨both.1, both.2.mpr List.nil_infix⟩

/-- Over the cap a row that is not remembered stays behind whatever it was mixed in with. -/
theorem not_restored_over_cap :
    ¬ ∀ (ledger : RowOrderLedger Unit Nat) (liveOrder shuffled : List Nat),
      liveOrder.Nodup → shuffled.Perm liveOrder →
        reconcileOrderWithRemembered shuffled
          ((ledger.recordLiveOrder () liveOrder).1.scopeRows ()) = liveOrder := by
  intro restored
  have liveNodup : (List.range (maxRowsPerScope + 1)).Nodup := List.nodup_range
  have same := List.reverse_perm (List.range (maxRowsPerScope + 1))
  have together := (reconcile_recorded_iff (fun _ => none) () liveNodup same).mp
    (restored (fun _ => none) _ _ liveNodup same)
  have falling : (List.range (maxRowsPerScope + 1)).reverse.Pairwise (· > ·) :=
    List.pairwise_reverse.mpr List.pairwise_lt_range
  have twoRows : ((List.range (maxRowsPerScope + 1)).drop (maxRowsPerScope - 1)).length = 2 := by
    rw [List.length_drop, List.length_range]
    rfl
  have inverted := List.pairwise_iff_getElem.mp (falling.sublist together.sublist) 0 1
    (by omega) (by omega) Nat.zero_lt_one
  rw [List.getElem_drop, List.getElem_drop, List.getElem_range, List.getElem_range] at inverted
  omega

end Yggterm.RowOrder
