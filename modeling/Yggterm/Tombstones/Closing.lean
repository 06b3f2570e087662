import Yggterm.Tombstones.Shared

/-!
# One close in the file

A close is to take effect at once, and one that daemons keep contesting is to stay.  The first
fails on an entry that a load would have dropped and on a file full of later closes; the second
holds because a touch leaves no entry older than half its lifetime behind.
-/

namespace Yggterm.Tombstones

open Newest Runs

variable {identity : String} {now : Nat}

/-! ## What a load leaves of any file -/

/-- What is newer than an unexpired close does not depend on the expired ones. -/
theorem newer_filter_unexpired (entries : Entries) {recorded : Nat}
    (unexpired : expired recorded now = false) :
    newer (datedEntries (entries.filter fun _ recorded => !expired recorded now))
        (dated (identity, recorded)) =
      newer (datedEntries entries) (dated (identity, recorded)) := by
  apply newer_congr (nodup_datedEntries _) (nodup_datedEntries _)
  intro other above
  obtain ⟨entry, rfl⟩ := dated_surjective other
  have later := snd_le_of_dated_lt above
  have entryUnexpired : expired entry.2 now = false := by
    rw [expired_eq_false] at unexpired ⊢
    omega
  rw [mem_datedEntries, mem_datedEntries, Std.ExtTreeMap.getElem?_filter']
  simp [Option.filter_eq_some_iff, entryUnexpired]

/-- Also of a file over its cap: an unexpired close blocks while fewer than the cap are newer. -/
theorem blocks_load_iff (file : LiveRowTombstones) (identity : String) (now : Nat) :
    (file.load now).blocks identity now = true ↔
      ∃ recorded, file.entries[identity]? = some recorded ∧ expired recorded now = false ∧
        newer (datedEntries file.entries) (dated (identity, recorded)) < maxTombstones := by
  have kept : ∀ recorded, (file.load now).entries[identity]? = some recorded ↔
      (file.entries[identity]? = some recorded ∧ expired recorded now = false) ∧
        newer (datedEntries (file.entries.filter fun _ recorded => !expired recorded now))
          (dated (identity, recorded)) < maxTombstones := by
    intro recorded
    rw [LiveRowTombstones.load, LiveRowTombstones.gc, entries_gcDepartures,
      LiveRowTombstones.getElem?_evictOverCap, Std.ExtTreeMap.getElem?_filter',
      Option.filter_eq_some_iff, Bool.not_eq_true']
  rw [LiveRowTombstones.blocks, Option.any_eq_true]
  constructor
  · rintro ⟨recorded, found, isUnexpired⟩
    obtain ⟨⟨inFile, unexpired⟩, few⟩ := (kept recorded).mp found
    rw [newer_filter_unexpired file.entries unexpired] at few
    exact ⟨recorded, inFile, unexpired, few⟩
  · rintro ⟨recorded, inFile, unexpired, few⟩
    refine ⟨recorded, ?_, by simp [unexpired]⟩
    apply (kept recorded).mpr
    rw [newer_filter_unexpired file.entries unexpired]
    exact ⟨⟨inFile, unexpired⟩, few⟩

/-! ## A close at once -/

/-- No expired entry of the row is left in the file, and its close is among the newest. -/
def TakesEffect (file : LiveRowTombstones) (identity : String) (now : Nat) : Prop :=
  match file.entries[identity]? with
  | some recorded =>
      expired recorded now = false ∧
        newer (datedEntries file.entries) (dated (identity, recorded)) < maxTombstones
  | none => newer (datedEntries file.entries) (dated (identity, now)) < maxTombstones

theorem unexpired_now (now : Nat) : expired now now = false := by
  simp [expired, tombstoneTtlSecs]

/-- A close that is not in the file yet is not newer than itself. -/
theorem newer_insert_self {entries : Entries} (absent : entries[identity]? = none) :
    newer (datedEntries (entries.insert identity now)) (dated (identity, now)) =
      newer (datedEntries entries) (dated (identity, now)) := by
  apply newer_congr (nodup_datedEntries _) (nodup_datedEntries _)
  intro other above
  obtain ⟨entry, rfl⟩ := dated_surjective other
  rw [mem_datedEntries, mem_datedEntries, Std.ExtTreeMap.getElem?_insert]
  by_cases same : identity = entry.1
  · have later := snd_lt_of_dated_lt same above
    rw [if_pos (Std.LawfulEqCmp.compare_eq_iff_eq.mpr same), ← same, absent]
    constructor
    · intro isNow
      exact absurd (Option.some.inj isNow) later.ne
    · nofun
  · rw [if_neg (mt Std.LawfulEqCmp.compare_eq_iff_eq.mp same)]

/-- After a close is recorded, a load in that second blocks its row exactly when the file has no
expired entry of the row and its cap is not filled by newer closes. -/
theorem blocks_recordClose_iff (file : LiveRowTombstones) (identity : String) (now : Nat) :
    ((file.recordClose identity now).1.load now).blocks identity now = true ↔
      TakesEffect file identity now := by
  rw [blocks_load_iff, LiveRowTombstones.recordClose, entries_mutateShared,
    LiveRowTombstones.record, TakesEffect]
  cases found : file.entries[identity]? with
  | some recorded =>
      rw [if_pos (contains_of_getElem? found), found]
      dsimp only
      constructor
      · rintro ⟨other, same, unexpired, few⟩
        obtain rfl := Option.some.inj same
        exact ⟨unexpired, few⟩
      · rintro ⟨unexpired, few⟩
        exact ⟨recorded, rfl, unexpired, few⟩
  | none =>
      have absent : ¬ file.entries.contains identity = true := by
        rw [Std.ExtTreeMap.contains_eq_isSome_getElem?, found]
        exact Bool.false_ne_true
      rw [if_neg absent]
      dsimp only
      constructor
      · rintro ⟨recorded, kept, _, _⟩
        obtain ⟨inserted, few⟩ := LiveRowTombstones.getElem?_evictOverCap.mp kept
        dsimp only at inserted few
        rw [Std.ExtTreeMap.getElem?_insert_self] at inserted
        obtain rfl := Option.some.inj inserted
        rw [newer_insert_self found] at few
        exact few
      · intro few
        have kept : (LiveRowTombstones.evictOverCap
            { file with entries := file.entries.insert identity now }).entries[identity]? =
              some now := by
          apply LiveRowTombstones.getElem?_evictOverCap.mpr
          dsimp only
          rw [newer_insert_self found]
          exact ⟨Std.ExtTreeMap.getElem?_insert_self, few⟩
        refine ⟨now, kept, unexpired_now now, ?_⟩
        apply lt_of_lt_of_le (newer_lt_length (mem_datedEntries.mpr kept))
        rw [length_datedEntries]
        exact LiveRowTombstones.size_evictOverCap_le _

/-- A file in which the close of a row has just expired. -/
def justExpired : LiveRowTombstones where
  entries := (∅ : Entries).insert "row-a" 0
  departures := []

theorem justExpired_not_blocked :
    ¬ ((justExpired.recordClose "row-a" 259200).1.load 259200).blocks "row-a" 259200 = true := by
  decide +kernel

/-! ## A contested close -/

/-- The entries of the file after a call. -/
def entriesAfter (state : State) : Action → Entries
  | .recordClose _ identity elapsed => (state.file.record identity (state.clock + elapsed)).entries
  | .touchClose _ identity elapsed => (state.file.touch identity (state.clock + elapsed)).entries
  | .reconcile _ entered elapsed =>
      (entered.foldl LiveRowTombstones.clear (state.file.gc (state.clock + elapsed))).entries
  | .recordDeparture _ _ _ | .refresh _ _ => state.file.entries

theorem entries_step (state : State) (action : Action) :
    (step state action).file.entries = entriesAfter state action := by
  cases action with
  | recordClose daemon identity elapsed =>
      exact entries_mutateShared state.file fun shared =>
        shared.record identity (state.clock + elapsed)
  | touchClose daemon identity elapsed =>
      exact entries_mutateShared state.file fun shared =>
        shared.touch identity (state.clock + elapsed)
  | reconcile daemon entered elapsed =>
      exact entries_mutateShared state.file fun shared =>
        entered.foldl LiveRowTombstones.clear (shared.gc (state.clock + elapsed))
  | recordDeparture daemon departure elapsed =>
      exact entries_mutateShared state.file fun shared => shared.pushDeparture departure
  | refresh daemon elapsed => rfl

theorem clock_le_step (state : State) (action : Action) :
    state.clock ≤ (step state action).clock := by
  cases action <;> exact Nat.le_add_right _ _

/-- The run of the daemons and the second of the last touch of a row. -/
def stepTouched (identity : String) (between : State × Nat) (action : Action) : State × Nat :=
  let after := step between.1 action
  match action with
  | .touchClose _ other _ =>
      (after, if other = identity then after.clock else between.2)
  | _ => (after, between.2)

/-- A touch of the row comes within half the lifetime of the last; nothing is evicted, and the
row is not entered again. -/
def Contested (identity : String) (between : State × Nat) : Action → Prop
  | .touchClose _ other elapsed =>
      other = identity → between.1.clock + elapsed ≤ between.2 + tombstoneRenewalAgeSecs
  | .recordClose _ other _ =>
      between.1.file.entries.contains other = true ∨
        between.1.file.entries.size < maxTombstones
  | .reconcile _ entered _ => identity ∉ entered
  | .recordDeparture _ _ _ | .refresh _ _ => True

/-- Until half the lifetime has passed since the last touch, every load blocks the row. -/
def Blocked (identity : String) (between : State × Nat) : Prop :=
  ∀ time, between.1.clock ≤ time → time ≤ between.2 + tombstoneRenewalAgeSecs →
    (between.1.file.load time).blocks identity time = true

/-- In reach of the last touch, the entry is from less than half a lifetime before it. -/
structure Young (identity : String) (between : State × Nat) : Prop where
  fits : between.1.file.entries.size ≤ maxTombstones
  young : between.1.clock ≤ between.2 + tombstoneRenewalAgeSecs →
    ∃ recorded, between.1.file.entries[identity]? = some recorded ∧
      between.2 < recorded + tombstoneRenewalAgeSecs

theorem unexpired_of_young {recorded last time : Nat}
    (young : last < recorded + tombstoneRenewalAgeSecs)
    (inReach : time ≤ last + tombstoneRenewalAgeSecs) : expired recorded time = false := by
  rw [expired_eq_false]
  simp only [tombstoneRenewalAgeSecs, tombstoneTtlSecs] at young inReach ⊢
  omega

theorem Young.blocked {between : State × Nat} (young : Young identity between) :
    Blocked identity between := by
  intro time later inReach
  obtain ⟨recorded, found, isYoung⟩ := young.young (later.trans inReach)
  exact (blocks_load young.fits).mpr ⟨recorded, found, unexpired_of_young isYoung inReach⟩

/-- A call that is no touch of the row and leaves its entry where it is. -/
theorem Young.keep {between : State × Nat} {after : State} (young : Young identity between)
    (later : between.1.clock ≤ after.clock) (fits : after.file.entries.size ≤ maxTombstones)
    (keeps : ∀ recorded, between.1.file.entries[identity]? = some recorded →
      expired recorded after.clock = false → after.file.entries[identity]? = some recorded) :
    Young identity (after, between.2) := by
  refine ⟨fits, ?_⟩
  intro inReach
  obtain ⟨recorded, found, isYoung⟩ := young.young (later.trans inReach)
  exact ⟨recorded, keeps recorded found (unexpired_of_young isYoung inReach), isYoung⟩

theorem getElem?_touch_of_ne {file : LiveRowTombstones} {other : String}
    (different : other ≠ identity) (now : Nat) :
    (file.touch other now).entries[identity]? = file.entries[identity]? := by
  have apart : ¬ compare other identity = .eq := mt Std.LawfulEqCmp.compare_eq_iff_eq.mp different
  rw [LiveRowTombstones.touch]
  split
  · rfl
  · split
    · rw [LiveRowTombstones.clear, Std.ExtTreeMap.getElem?_erase, if_neg apart]
    · split
      · rw [Std.ExtTreeMap.getElem?_insert, if_neg apart]
      · rfl

theorem getElem?_touch_of_unexpired {file : LiveRowTombstones} {recorded : Nat}
    (found : file.entries[identity]? = some recorded) (unexpired : expired recorded now = false) :
    (file.touch identity now).entries[identity]? =
      some (if tombstoneRenewalAgeSecs ≤ now - recorded then now else recorded) := by
  simp only [LiveRowTombstones.touch, found, unexpired, Bool.false_eq_true, if_false]
  split
  · exact Std.ExtTreeMap.getElem?_insert_self
  · exact found

theorem getElem?_record_of_mem {file : LiveRowTombstones} {other : String} {recorded : Nat}
    (found : file.entries[identity]? = some recorded)
    (noEviction : file.entries.contains other = true ∨ file.entries.size < maxTombstones)
    (now : Nat) : (file.record other now).entries[identity]? = some recorded := by
  rw [LiveRowTombstones.record]
  split
  · exact found
  · next absent =>
      have fits : (file.entries.insert other now).size ≤ maxTombstones := by
        rw [Std.ExtTreeMap.size_insert, if_neg absent]
        exact noEviction.resolve_left absent
      have different : ¬ compare other identity = .eq := by
        intro same
        rw [Std.LawfulEqCmp.compare_eq_iff_eq.mp same] at absent
        exact absent (contains_of_getElem? found)
      rw [LiveRowTombstones.evictOverCap, if_pos fits, Std.ExtTreeMap.getElem?_insert,
        if_neg different]
      exact found

theorem getElem?_reconcile {file : LiveRowTombstones} {entered : List String} {recorded : Nat}
    (fits : file.entries.size ≤ maxTombstones) (notEntered : identity ∉ entered)
    (found : file.entries[identity]? = some recorded) (unexpired : expired recorded now = false) :
    (entered.foldl LiveRowTombstones.clear (file.gc now)).entries[identity]? = some recorded := by
  rw [getElem?_foldl_clear, if_neg notEntered, entries_gc fits, Std.ExtTreeMap.getElem?_filter',
    found]
  simp [unexpired]

theorem young_touch {between : State × Nat} (young : Young identity between) (daemon elapsed : Nat)
    (inReach : between.1.clock + elapsed ≤ between.2 + tombstoneRenewalAgeSecs) :
    Young identity
      (step between.1 (.touchClose daemon identity elapsed), between.1.clock + elapsed) := by
  obtain ⟨recorded, found, isYoung⟩ := young.young ((Nat.le_add_right _ elapsed).trans inReach)
  have unexpired := unexpired_of_young isYoung inReach
  constructor
  · rw [entries_step]
    exact size_touch_le young.fits identity _
  · intro _
    rw [entries_step]
    refine ⟨_, getElem?_touch_of_unexpired found unexpired, ?_⟩
    dsimp only
    split
    · simp [tombstoneRenewalAgeSecs, tombstoneTtlSecs]
    · omega

/-- Calls that do not touch the row. -/
theorem young_step {between : State × Nat} (young : Young identity between) {action : Action}
    (fits : (entriesAfter between.1 action).size ≤ maxTombstones)
    (keeps : ∀ recorded, between.1.file.entries[identity]? = some recorded →
      expired recorded (step between.1 action).clock = false →
        (entriesAfter between.1 action)[identity]? = some recorded) :
    Young identity (step between.1 action, between.2) := by
  rw [← entries_step] at fits keeps
  exact young.keep (clock_le_step between.1 action) fits keeps

theorem young_stepTouched (between : State × Nat) (action : Action)
    (young : Young identity between) (contested : Contested identity between action) :
    Young identity (stepTouched identity between action) := by
  have fits := young.fits
  cases action with
  | touchClose daemon other elapsed =>
      by_cases same : other = identity
      · subst same
        rw [stepTouched, if_pos rfl]
        exact young_touch young daemon elapsed (contested rfl)
      · rw [stepTouched, if_neg same]
        refine young_step young ?_ ?_
        · exact size_touch_le fits other _
        · intro recorded found _
          exact (getElem?_touch_of_ne same _).trans found
  | recordClose daemon other elapsed =>
      refine young_step young ?_ ?_
      · exact size_record_le fits other _
      · intro recorded found _
        exact getElem?_record_of_mem found contested _
  | reconcile daemon entered elapsed =>
      apply young_step young
      · apply (size_foldl_clear_le _ entered).trans
        rw [entries_gc fits]
        exact Std.ExtTreeMap.size_filter_le_size.trans fits
      · intro recorded found unexpired
        exact getElem?_reconcile fits contested found unexpired
  | recordDeparture daemon departure elapsed =>
      exact young_step young fits fun recorded found _ => found
  | refresh daemon elapsed => exact young_step young fits fun recorded found _ => found

/-- A close that is recorded now, and then touched at least every half lifetime, blocks its row
at every touch and between the touches, whatever else the daemons do; and no touch brings back a
close that has expired. -/
theorem contested_stays_closed (identity : String) :
    (∀ (state : State) (actions : List Action), state.file.entries.size ≤ maxTombstones →
      state.file.entries[identity]? = some state.clock →
        Guarded (stepTouched identity) (Contested identity) (state, state.clock) actions →
          Always (stepTouched identity) (Blocked identity) (state, state.clock) actions) ∧
      ∀ (file : LiveRowTombstones) (now : Nat),
        (∀ recorded, file.entries[identity]? = some recorded → expired recorded now = true) →
          (file.touchClose identity now).1.entries[identity]? = none := by
  constructor
  · intro state actions fits isRecorded contested
    apply always_of_guarded young_stepTouched (fun _ young => young.blocked) ?_ contested
    refine ⟨fits, fun _ => ⟨state.clock, isRecorded, ?_⟩⟩
    simp [tombstoneRenewalAgeSecs, tombstoneTtlSecs]
  · intro file now allExpired
    rw [LiveRowTombstones.touchClose, entries_mutateShared, LiveRowTombstones.touch]
    cases found : file.entries[identity]? with
    | none => exact found
    | some recorded =>
        dsimp only
        rw [if_pos (allExpired recorded found), LiveRowTombstones.clear]
        exact Std.ExtTreeMap.getElem?_erase_self

def closedRow : State :=
  step (start 0 fun _ => ⟨∅, []⟩) (.recordClose 0 "row-a" 0)

/-- Two daemons keep offering the row, just in time. -/
def offers : List Action :=
  [.touchClose 1 "row-a" 129600, .recordClose 1 "row-b" 60, .touchClose 2 "row-a" 129540]

theorem contested_stays_closed_offers :
    Always (stepTouched "row-a") (Blocked "row-a") (closedRow, 0) offers := by
  apply (contested_stays_closed "row-a").1 closedRow offers (by decide)
    (by decide)
  refine ⟨fun _ => ?_, .inr ?_, fun _ => ?_, trivial⟩ <;> decide

end Yggterm.Tombstones
