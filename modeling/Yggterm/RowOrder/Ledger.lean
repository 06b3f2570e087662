import Mathlib.Data.List.Basic
import Yggterm.Library.Anchors
import Yggterm.Library.Duplicates
import Yggterm.Library.Runs

/-!
# The row-order ledger

For each client scope the daemon (`yggterm-server/src/row_order_ledger.rs`) remembers
the order of the session rows, those that are live and those that were.  Scopes and
rows are any types with decidable equality: the source never looks inside them.
-/

namespace Yggterm.RowOrder

open Anchors Duplicates Runs

universe u v

section Ledger

variable {Scope : Type u} {Row : Type v} [DecidableEq Scope] [DecidableEq Row]

def maxRowsPerScope : Nat := 1000

/-- scope -> ordered rows, live and remembered-non-live mixed. -/
abbrev RowOrderLedger (Scope : Type u) (Row : Type v) := Scope → Option (List Row)

def RowOrderLedger.scopeRows (ledger : RowOrderLedger Scope Row) (scope : Scope) : List Row :=
  (ledger scope).getD []

/-- The loop over the old rows: each non-live row with the place, in the live order, of
the live row last passed. -/
def absentRows (liveOrder : List Row) : List Row → Option Row → List Row → List (Option Nat × Row)
  | _, _, [] => []
  | seen, lastLiveAnchor, entry :: rest =>
      if entry ∈ seen then absentRows liveOrder seen lastLiveAnchor rest
      else if entry ∈ liveOrder then absentRows liveOrder (entry :: seen) (some entry) rest
      else
        (lastLiveAnchor.bind fun anchor => liveOrder.idxOf? anchor, entry) ::
          absentRows liveOrder (entry :: seen) lastLiveAnchor rest

/-- `absent_after.get`: the rows remembered behind one place, in their old order. -/
def absentAfter (absent : List (Option Nat × Row)) (anchor : Option Nat) : List Row :=
  (absent.filter fun entry => entry.1 = anchor).map Prod.snd

/-- The rows before the cap. -/
def nextRows (old liveOrder : List Row) : List Row :=
  let absent := absentRows liveOrder [] none old
  absentAfter absent none ++
    liveOrder.zipIdx.flatMap fun (row, index) => row :: absentAfter absent (some index)

/-- Without the last row that is not live, if there is one. -/
def removeLastAbsent (liveOrder : List Row) : List Row → Option (List Row)
  | [] => none
  | row :: rest =>
      match removeLastAbsent liveOrder rest with
      | some shorter => some (row :: shorter)
      | none => if row ∈ liveOrder then none else some rest

/-- The loop that enforces the cap, by the number of rows over it. -/
def capRows (liveOrder : List Row) : Nat → List Row → List Row
  | 0, rows => rows
  | excess + 1, rows =>
      match removeLastAbsent liveOrder rows with
      | some shorter => capRows liveOrder excess shorter
      | none => rows.take maxRowsPerScope

/-- `record_live_order`, and whether the ledger changed. -/
def RowOrderLedger.recordLiveOrder (ledger : RowOrderLedger Scope Row) (scope : Scope)
    (liveOrder : List Row) : RowOrderLedger Scope Row × Bool :=
  let merged := nextRows (ledger.scopeRows scope) liveOrder
  let next := capRows liveOrder (merged.length - maxRowsPerScope) merged
  if ledger scope = some next ∨ (next = [] ∧ ledger scope = none) then (ledger, false)
  else (Function.update ledger scope (some next), true)

end Ledger

/-! ## The ledger keeps every row's place

A recorded order is woven into the remembered one: the live rows come as recorded,
and each row that is not live stays behind the live row it was behind. -/

variable {Scope : Type u} {Row : Type v} [DecidableEq Row]

section

variable {liveOrder old : List Row}

/-- The live rows are the anchors. -/
def isLive (liveOrder : List Row) (row : Row) : Bool := decide (row ∈ liveOrder)

theorem isLive_eq_true_iff {row : Row} : isLive liveOrder row = true ↔ row ∈ liveOrder := by
  simp [isLive]

theorem isLive_eq_false_iff {row : Row} : isLive liveOrder row = false ↔ row ∉ liveOrder := by
  simp [isLive]

/-! ### The merge is a weave -/

/-- The loop over rows that do not repeat. -/
def absentFrom (liveOrder : List Row) : Option Row → List Row → List (Option Nat × Row)
  | _, [] => []
  | anchor, entry :: rest =>
      if entry ∈ liveOrder then absentFrom liveOrder (some entry) rest
      else
        (anchor.bind fun anchor => liveOrder.idxOf? anchor, entry) ::
          absentFrom liveOrder anchor rest

theorem absentRows_eq (seen : List Row) (anchor : Option Row) :
    absentRows liveOrder seen anchor old = absentFrom liveOrder anchor (unseen seen old) := by
  induction old generalizing seen anchor with
  | nil => rfl
  | cons entry rest inductionHypothesis =>
      rw [absentRows]
      by_cases repeated : entry ∈ seen
      · rw [if_pos repeated, unseen_cons_of_mem repeated]
        exact inductionHypothesis seen anchor
      · rw [if_neg repeated, unseen_cons_of_not_mem repeated, absentFrom,
          inductionHypothesis (entry :: seen) (some entry),
          inductionHypothesis (entry :: seen) anchor]

omit [DecidableEq Row] in
theorem absentAfter_cons_of_ne {place other : Option Nat} (different : other ≠ place) (row : Row)
    (absent : List (Option Nat × Row)) :
    absentAfter ((other, row) :: absent) place = absentAfter absent place := by
  simp [absentAfter, different]

omit [DecidableEq Row] in
theorem absentAfter_cons_self (place : Option Nat) (row : Row) (absent : List (Option Nat × Row)) :
    absentAfter ((place, row) :: absent) place = row :: absentAfter absent place := by
  simp [absentAfter]

/-- Different live rows have different places. -/
theorem place_ne {row : Row} (live : row ∈ liveOrder) {anchor : Option Row}
    (different : anchor ≠ some row) :
    (anchor.bind fun anchor => liveOrder.idxOf? anchor) ≠ liveOrder.idxOf? row := by
  intro same
  obtain ⟨place, isPlace⟩ := Option.isSome_iff_exists.mp (List.isSome_idxOf?.mpr live)
  rw [isPlace] at same
  obtain ⟨other, isAnchor, isOther⟩ := Option.bind_eq_some_iff.mp same
  obtain ⟨rowBound, isRow, _⟩ := List.idxOf?_eq_some_iff.mp isPlace
  obtain ⟨otherBound, isOtherRow, _⟩ := List.idxOf?_eq_some_iff.mp isOther
  exact different (isAnchor.trans (congrArg some (isOtherRow.symm.trans isRow)))

theorem absentAfter_eq_nil {row : Row} (live : row ∈ liveOrder) (gone : row ∉ old)
    {anchor : Option Row} (different : anchor ≠ some row) :
    absentAfter (absentFrom liveOrder anchor old) (liveOrder.idxOf? row) = [] := by
  induction old generalizing anchor with
  | nil => rfl
  | cons entry rest inductionHypothesis =>
      obtain ⟨notEntry, notLater⟩ := not_or.mp (mt List.mem_cons.mpr gone)
      rw [absentFrom]
      split
      · exact inductionHypothesis notLater fun same => notEntry (Option.some.inj same).symm
      · rw [absentAfter_cons_of_ne (place_ne live different)]
        exact inductionHypothesis notLater different

theorem absentAfter_current {row : Row} (live : row ∈ liveOrder) (gone : row ∉ old) :
    absentAfter (absentFrom liveOrder (some row) old) (liveOrder.idxOf? row) =
      front (isLive liveOrder) old := by
  induction old with
  | nil => rfl
  | cons entry rest inductionHypothesis =>
      obtain ⟨notEntry, notLater⟩ := not_or.mp (mt List.mem_cons.mpr gone)
      rw [absentFrom]
      split
      · next entryLive =>
          rw [front_cons_of_anchor (isLive_eq_true_iff.mpr entryLive)]
          exact absentAfter_eq_nil live notLater fun same => notEntry (Option.some.inj same).symm
      · next entryAbsent =>
          rw [front_cons_of_not (isLive_eq_false_iff.mpr entryAbsent), Option.bind_some,
            absentAfter_cons_self, inductionHypothesis notLater]

theorem absentAfter_eq_behind {row : Row} (live : row ∈ liveOrder) (nodup : old.Nodup)
    {anchor : Option Row} (different : anchor ≠ some row) :
    absentAfter (absentFrom liveOrder anchor old) (liveOrder.idxOf? row) =
      behind (isLive liveOrder) row old := by
  induction old generalizing anchor with
  | nil => rfl
  | cons entry rest inductionHypothesis =>
      obtain ⟨notLater, restNodup⟩ := List.nodup_cons.mp nodup
      rw [absentFrom]
      by_cases isRow : entry = row
      · subst isRow
        rw [if_pos live, behind_cons_self]
        exact absentAfter_current live notLater
      · rw [behind_cons_of_ne isRow]
        split
        · exact inductionHypothesis restNodup fun same => isRow (Option.some.inj same)
        · rw [absentAfter_cons_of_ne (place_ne live different)]
          exact inductionHypothesis restNodup different

/-- Behind a live row nothing is in front. -/
theorem absentAfter_none_of_live {anchor : Row} (live : anchor ∈ liveOrder) :
    absentAfter (absentFrom liveOrder (some anchor) old) none = [] := by
  induction old generalizing anchor with
  | nil => rfl
  | cons entry rest inductionHypothesis =>
      rw [absentFrom]
      split
      · next entryLive => exact inductionHypothesis entryLive
      · have placed : ((some anchor).bind fun anchor => liveOrder.idxOf? anchor) ≠ none := by
          intro missing
          exact List.idxOf?_eq_none_iff.mp missing live
        rw [absentAfter_cons_of_ne placed]
        exact inductionHypothesis live

theorem absentAfter_none : absentAfter (absentFrom liveOrder none old) none =
    front (isLive liveOrder) old := by
  induction old with
  | nil => rfl
  | cons entry rest inductionHypothesis =>
      rw [absentFrom]
      split
      · next entryLive =>
          rw [front_cons_of_anchor (isLive_eq_true_iff.mpr entryLive)]
          exact absentAfter_none_of_live entryLive
      · next entryAbsent =>
          rw [front_cons_of_not (isLive_eq_false_iff.mpr entryAbsent), Option.bind_none,
            absentAfter_cons_self, inductionHypothesis]

theorem idxOf?_of_mem_zipIdx (liveNodup : liveOrder.Nodup) {row : Row} {index : Nat}
    (member : (row, index) ∈ liveOrder.zipIdx) : liveOrder.idxOf? row = some index := by
  have isRow := List.mk_mem_zipIdx_iff_getElem?.mp member
  obtain ⟨bound, isRow⟩ := List.getElem?_eq_some_iff.mp isRow
  apply List.idxOf?_eq_some_iff.mpr
  refine ⟨bound, isRow, ?_⟩
  intro earlier isEarlier same
  have sameIndex := (liveNodup.getElem_inj_iff).mp (same.trans isRow.symm)
  omega

theorem nextRows_eq_weave_eraseDups (liveNodup : liveOrder.Nodup) :
    nextRows old liveOrder = weave (isLive liveOrder) liveOrder old.eraseDups := by
  have unseenRows : absentRows liveOrder [] none old =
      absentFrom liveOrder none old.eraseDups := by
    rw [absentRows_eq, unseen_empty]
  have byIndex (segment : Row → List Row) :
      liveOrder.flatMap segment = liveOrder.zipIdx.flatMap fun entry => segment entry.1 := by
    rw [← List.flatMap_map Prod.fst, List.zipIdx_map_fst]
  rw [nextRows, unseenRows, absentAfter_none, weave, byIndex]
  congr 1
  apply List.flatMap_congr
  rintro ⟨row, index⟩ member
  have live : row ∈ liveOrder := by
    rw [← List.zipIdx_map_fst 0 liveOrder]
    exact List.mem_map_of_mem (f := Prod.fst) member
  have placed := absentAfter_eq_behind live (nodup_eraseDups old) (Option.some_ne_none row).symm
  rw [idxOf?_of_mem_zipIdx liveNodup member] at placed
  exact congrArg (row :: ·) placed

theorem nextRows_eq_weave (liveNodup : liveOrder.Nodup) (nodup : old.Nodup) :
    nextRows old liveOrder = weave (isLive liveOrder) liveOrder old := by
  rw [nextRows_eq_weave_eraseDups liveNodup, eraseDups_of_nodup nodup]

theorem filter_nextRows (old : List Row) (liveNodup : liveOrder.Nodup) :
    (nextRows old liveOrder).filter (isLive liveOrder) = liveOrder := by
  rw [nextRows_eq_weave_eraseDups liveNodup]
  exact filter_weave fun anchor member => isLive_eq_true_iff.mpr member

theorem nextRows_perm (old : List Row) (liveNodup : liveOrder.Nodup) : (nextRows old liveOrder).Perm
    (liveOrder ++ old.eraseDups.filter fun row => !isLive liveOrder row) := by
  rw [nextRows_eq_weave_eraseDups liveNodup]
  apply weave_perm _ liveNodup (nodup_eraseDups old)
  · intro row _ live
    exact isLive_eq_true_iff.mp live
  · intro anchor member
    exact isLive_eq_true_iff.mpr member

theorem nodup_nextRows (old : List Row) (liveNodup : liveOrder.Nodup) :
    (nextRows old liveOrder).Nodup := by
  apply (nextRows_perm old liveNodup).nodup_iff.mpr
  apply List.Nodup.append liveNodup ((nodup_eraseDups old).filter _)
  intro row inLive inAbsent
  have absent := (List.mem_filter.mp inAbsent).2
  simp [isLive_eq_true_iff.mpr inLive] at absent

/-! ### The cap -/

theorem removeLastAbsent_eq_some {rows shorter : List Row}
    (removed : removeLastAbsent liveOrder rows = some shorter) :
    shorter.Sublist rows ∧ rows.length = shorter.length + 1 ∧
      shorter.filter (isLive liveOrder) = rows.filter (isLive liveOrder) := by
  induction rows generalizing shorter with
  | nil => cases removed
  | cons row rest inductionHypothesis =>
      rw [removeLastAbsent] at removed
      cases later : removeLastAbsent liveOrder rest with
      | some shorterRest =>
          obtain ⟨part, oneLess, sameLive⟩ := inductionHypothesis later
          rw [later] at removed
          obtain rfl : row :: shorterRest = shorter := by simpa using removed
          refine ⟨part.cons_cons row, by simp [oneLess], ?_⟩
          rw [List.filter_cons, List.filter_cons, sameLive]
      | none =>
          rw [later] at removed
          by_cases live : row ∈ liveOrder
          · simp [live] at removed
          · obtain rfl : rest = shorter := by simpa [live] using removed
            have absent : ¬ isLive liveOrder row = true := by simpa [isLive] using live
            exact ⟨List.sublist_cons_self row rest, rfl, (List.filter_cons_of_neg absent).symm⟩

theorem removeLastAbsent_eq_none {rows : List Row}
    (nothing : removeLastAbsent liveOrder rows = none) : rows.filter (isLive liveOrder) = rows := by
  induction rows with
  | nil => rfl
  | cons row rest inductionHypothesis =>
      rw [removeLastAbsent] at nothing
      cases later : removeLastAbsent liveOrder rest with
      | some shorterRest => simp [later] at nothing
      | none =>
          have live : isLive liveOrder row = true := by
            rw [later] at nothing
            simpa [isLive] using nothing
          rw [List.filter_cons_of_pos live, inductionHypothesis later]

/-- Rows are dropped from the end, and of the live ones those alone that do not fit. -/
theorem capRows_keeps {excess : Nat} {rows : List Row}
    (isExcess : rows.length - maxRowsPerScope = excess) :
    (capRows liveOrder excess rows).Sublist rows ∧
      (capRows liveOrder excess rows).length ≤ maxRowsPerScope ∧
      (capRows liveOrder excess rows).filter (isLive liveOrder) =
        (rows.filter (isLive liveOrder)).take maxRowsPerScope := by
  induction excess generalizing rows with
  | zero =>
      have short : rows.length ≤ maxRowsPerScope := Nat.sub_eq_zero_iff_le.mp isExcess
      have shortLive := (List.length_filter_le (isLive liveOrder) rows).trans short
      exact ⟨List.Sublist.refl rows, short, (List.take_of_length_le shortLive).symm⟩
  | succ excess inductionHypothesis =>
      cases removed : removeLastAbsent liveOrder rows with
      | some shorter =>
          obtain ⟨part, oneLess, sameLive⟩ := removeLastAbsent_eq_some removed
          have isShorterExcess : shorter.length - maxRowsPerScope = excess := by omega
          obtain ⟨capPart, short, capLive⟩ := inductionHypothesis isShorterExcess
          rw [capRows, removed, ← sameLive]
          exact ⟨capPart.trans part, short, capLive⟩
      | none =>
          -- all rows are live
          have allLive := removeLastAbsent_eq_none removed
          rw [capRows, removed, allLive]
          refine ⟨List.take_sublist _ rows, List.length_take_le _ rows, ?_⟩
          apply List.filter_eq_self.mpr
          intro row member
          exact List.filter_eq_self.mp allLive row (List.mem_of_mem_take member)

/-- While the live rows fit, only others are dropped. -/
theorem capRows_spec {excess : Nat} {rows : List Row}
    (isExcess : rows.length - maxRowsPerScope = excess)
    (fits : (rows.filter (isLive liveOrder)).length ≤ maxRowsPerScope) :
    (capRows liveOrder excess rows).Sublist rows ∧
      (capRows liveOrder excess rows).length ≤ maxRowsPerScope ∧
      (capRows liveOrder excess rows).filter (isLive liveOrder) =
        rows.filter (isLive liveOrder) := by
  rw [← List.take_of_length_le fits]
  exact capRows_keeps isExcess

end

/-! ### One call -/

/-- The order of a call: live rows do not repeat, and there are no more than the cap. -/
structure LiveOrder (Scope : Type u) (Row : Type v) where
  scope : Scope
  rows : List Row
  nodup : rows.Nodup
  fits : rows.length ≤ maxRowsPerScope

/-- The rows after a call. -/
def recorded (old : List Row) (call : LiveOrder Scope Row) : List Row :=
  capRows call.rows ((nextRows old call.rows).length - maxRowsPerScope) (nextRows old call.rows)

section

variable (old : List Row) (call : LiveOrder Scope Row)

theorem recorded_spec :
    (recorded old call).Sublist (nextRows old call.rows) ∧
      (recorded old call).length ≤ maxRowsPerScope ∧
      (recorded old call).filter (isLive call.rows) = call.rows := by
  have live := filter_nextRows old call.nodup
  have spec := capRows_spec rfl (live.symm ▸ call.fits)
  rwa [live] at spec

theorem nodup_recorded : (recorded old call).Nodup :=
  (recorded_spec old call).1.nodup (nodup_nextRows old call.nodup)

/-- Within the cap nothing is dropped. -/
theorem recorded_of_fits {old : List Row} (oldNodup : old.Nodup)
    (fits : (old.filter fun row => !isLive call.rows row).length + call.rows.length ≤
      maxRowsPerScope) :
    recorded old call = weave (isLive call.rows) call.rows old := by
  have counted := (nextRows_perm old call.nodup).length_eq
  rw [List.length_append, eraseDups_of_nodup oldNodup] at counted
  have noExcess : (nextRows old call.rows).length - maxRowsPerScope = 0 := by omega
  rw [recorded, noExcess, ← nextRows_eq_weave call.nodup oldNodup]
  rfl

end

variable [DecidableEq Scope]

def record (ledger : RowOrderLedger Scope Row) (call : LiveOrder Scope Row) :
    RowOrderLedger Scope Row :=
  (ledger.recordLiveOrder call.scope call.rows).1

/-- What the ledger keeps to: no scope repeats a row or is over the cap. -/
def Sound (ledger : RowOrderLedger Scope Row) : Prop :=
  ∀ scope, (ledger.scopeRows scope).Nodup ∧ (ledger.scopeRows scope).length ≤ maxRowsPerScope

theorem scopeRows_recordLiveOrder (ledger : RowOrderLedger Scope Row) (scope : Scope)
    (liveOrder : List Row) :
    (ledger.recordLiveOrder scope liveOrder).1.scopeRows scope =
      capRows liveOrder ((nextRows (ledger.scopeRows scope) liveOrder).length - maxRowsPerScope)
        (nextRows (ledger.scopeRows scope) liveOrder) := by
  rw [RowOrderLedger.recordLiveOrder]
  split
  · next unchanged =>
      rcases unchanged with same | ⟨empty, missing⟩
      · change (ledger scope).getD [] = _
        rw [same, Option.getD_some]
      · change (ledger scope).getD [] = _
        rw [missing, empty, Option.getD_none]
  · simp [RowOrderLedger.scopeRows]

theorem scopeRows_record (ledger : RowOrderLedger Scope Row) (call : LiveOrder Scope Row) :
    (record ledger call).scopeRows call.scope = recorded (ledger.scopeRows call.scope) call :=
  scopeRows_recordLiveOrder ledger call.scope call.rows

theorem scopeRows_record_of_ne (ledger : RowOrderLedger Scope Row) (call : LiveOrder Scope Row)
    {scope : Scope} (elsewhere : call.scope ≠ scope) :
    (record ledger call).scopeRows scope = ledger.scopeRows scope := by
  rw [record, RowOrderLedger.recordLiveOrder]
  split
  · rfl
  · simp [RowOrderLedger.scopeRows, Function.update_of_ne elsewhere.symm]

theorem Sound.record {ledger : RowOrderLedger Scope Row} (sound : Sound ledger)
    (call : LiveOrder Scope Row) : Sound (record ledger call) := by
  intro scope
  by_cases here : call.scope = scope
  · subst here
    rw [scopeRows_record]
    exact ⟨nodup_recorded _ call, (recorded_spec _ call).2.1⟩
  · rw [scopeRows_record_of_ne ledger call here]
    exact sound scope

/-- Recording rows that are part of the ledger, in its order, finds it as it is. -/
theorem recordLiveOrder_of_sublist {ledger : RowOrderLedger Scope Row} {scope : Scope}
    (nodup : (ledger.scopeRows scope).Nodup)
    (short : (ledger.scopeRows scope).length ≤ maxRowsPerScope) {part : List Row}
    (isPart : part.Sublist (ledger.scopeRows scope)) :
    ledger.recordLiveOrder scope part = (ledger, false) := by
  have same : nextRows (ledger.scopeRows scope) part = ledger.scopeRows scope := by
    rw [nextRows_eq_weave (isPart.nodup nodup) nodup]
    exact weave_of_sublist nodup isPart fun row => isLive_eq_true_iff
  rw [RowOrderLedger.recordLiveOrder, same, Nat.sub_eq_zero_of_le short]
  apply if_pos
  cases known : ledger scope with
  | none => exact Or.inr ⟨by simp [capRows, RowOrderLedger.scopeRows, known], rfl⟩
  | some rows => exact Or.inl (by simp [capRows, RowOrderLedger.scopeRows, known])

/-! ### Runs -/

theorem sound_run {ledger : RowOrderLedger Scope Row} (sound : Sound ledger)
    (calls : List (LiveOrder Scope Row)) : Sound (run record ledger calls) :=
  run_invariant (fun _ call stillSound => stillSound.record call) sound calls

theorem scopeRows_run_of_ne {scope : Scope} {calls : List (LiveOrder Scope Row)}
    (elsewhere : ∀ call ∈ calls, call.scope ≠ scope) (ledger : RowOrderLedger Scope Row) :
    (run record ledger calls).scopeRows scope = ledger.scopeRows scope := by
  induction calls generalizing ledger with
  | nil => rfl
  | cons call rest inductionHypothesis =>
      have restElsewhere : ∀ call ∈ rest, call.scope ≠ scope :=
        fun other member => elsewhere other (List.mem_cons_of_mem _ member)
      rw [run_cons, inductionHypothesis restElsewhere]
      exact scopeRows_record_of_ne ledger call (elsewhere call List.mem_cons_self)

/-- After any calls, one more call leaves: no repeated row in any scope; the live rows
exactly as recorded; within the cap, every other remembered row behind the live row it was
behind, and the whole remembered order where the live rows come in it; and a later call in
this scope with some of the live rows, in their order, changes nothing. -/
theorem recordLiveOrder_keeps_places (earlier : List (LiveOrder Scope Row))
    (call : LiveOrder Scope Row) :
    let before := run record (fun _ => none) earlier
    let after := record before call
    let old := before.scopeRows call.scope
    let rows := after.scopeRows call.scope
    (∀ scope, (after.scopeRows scope).Nodup) ∧
      rows.filter (isLive call.rows) = call.rows ∧
      rows.length ≤ maxRowsPerScope ∧
      ((old.filter fun row => !isLive call.rows row).length + call.rows.length ≤ maxRowsPerScope →
        (∀ row ∈ old, row ∈ rows) ∧
        front (isLive call.rows) rows = front (isLive call.rows) old ∧
        (∀ anchor ∈ call.rows, behind (isLive call.rows) anchor rows =
          behind (isLive call.rows) anchor old) ∧
        (call.rows.filter (· ∈ old) = old.filter (isLive call.rows) → old.Sublist rows)) ∧
      ∀ others part, (∀ other ∈ others, other.scope ≠ call.scope) → part.Sublist call.rows →
        (run record after others).recordLiveOrder call.scope part =
          (run record after others, false) := by
  intro before after old rows
  have initially : Sound (fun _ : Scope => (none : Option (List Row))) :=
    fun _ => ⟨List.nodup_nil, Nat.zero_le _⟩
  have sound : Sound before := sound_run initially earlier
  have soundAfter : Sound after := sound.record call
  have oldNodup : old.Nodup := (sound call.scope).1
  have isRows : rows = recorded old call := scopeRows_record before call
  have spec := recorded_spec old call
  rw [← isRows] at spec
  have anchored : ∀ anchor ∈ call.rows, isLive call.rows anchor = true :=
    fun anchor member => isLive_eq_true_iff.mpr member
  refine ⟨fun scope => (soundAfter scope).1, spec.2.2, spec.2.1, ?_, ?_⟩
  · intro fits
    have woven : rows = weave (isLive call.rows) call.rows old :=
      isRows.trans (recorded_of_fits call oldNodup fits)
    rw [woven]
    refine ⟨?_, front_weave anchored, fun anchor member => behind_weave anchored call.nodup member,
      sublist_weave oldNodup⟩
    intro row member
    have kept := nextRows_perm old call.nodup
    rw [nextRows_eq_weave call.nodup oldNodup, eraseDups_of_nodup oldNodup] at kept
    apply kept.mem_iff.mpr
    by_cases live : row ∈ call.rows
    · exact List.mem_append_left _ live
    · have absent := isLive_eq_false_iff.mpr live
      exact List.mem_append_right _ (List.mem_filter.mpr ⟨member, by simp [absent]⟩)
  · intro others part elsewhere isPart
    obtain ⟨nodup, short⟩ := sound_run soundAfter others call.scope
    apply recordLiveOrder_of_sublist nodup short
    rw [scopeRows_run_of_ne elsewhere]
    have inRows : call.rows.Sublist rows := spec.2.2 ▸ List.filter_sublist
    exact isPart.trans inRows

/-- Two rows that are not live change places when the live rows they are behind do. -/
theorem relative_order_not_kept :
    ¬ ∀ (earlier : List (LiveOrder Unit Char)) (call : LiveOrder Unit Char),
      let before := run record (fun _ => none) earlier
      let old := before.scopeRows call.scope
      let rows := (record before call).scopeRows call.scope
      (old.filter fun row => !isLive call.rows row).length + call.rows.length ≤ maxRowsPerScope →
        ∀ row ∈ old, row ∉ call.rows → ∀ other ∈ old,
          [row, other].Sublist old → [row, other].Sublist rows := by
  intro kept
  have changed := kept [⟨(), ['a', 'x', 'b', 'y'], by decide, by decide⟩]
    ⟨(), ['b', 'a'], by decide, by decide⟩ (by decide) 'x' (by decide) (by decide) 'y' (by decide)
    (by decide)
  exact absurd changed (by decide)

end Yggterm.RowOrder
