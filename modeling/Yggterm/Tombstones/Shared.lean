import Yggterm.Library.Runs
import Yggterm.Tombstones.Store

/-!
# Closes between daemons

Any number of daemons work on one tombstone file, each with a copy of its own that it
never writes back.  `closes` is what the file is for: the closes that were recorded,
with the second that starts their expiry, less those whose row was entered again and
those that the cap's worth of newer closes pushed out.
-/

namespace Yggterm.Tombstones

open Newest Runs

/-! ## The closes to be remembered -/

/-- A close is dropped when the cap is filled by newer ones. -/
def keepNewest (closes : Entries) : Entries :=
  closes.filter fun identity recorded =>
    decide (newer (datedEntries closes) (dated (identity, recorded)) < maxTombstones)

/-- A close that is still remembered keeps its first second. -/
def rememberClose (closes : Entries) (identity : String) (now : Nat) : Entries :=
  if closes[identity]?.any fun recorded => !expired recorded now then closes
  else keepNewest (closes.insert identity now)

/-- A contested close starts again once it is old enough. -/
def renewClose (closes : Entries) (identity : String) (now : Nat) : Entries :=
  if closes[identity]?.any fun recorded =>
      !expired recorded now && decide (tombstoneRenewalAgeSecs ≤ now - recorded) then
    closes.insert identity now
  else closes

def forgetEntered (closes : Entries) (entered : List String) : Entries :=
  closes.filter fun identity _ => decide (identity ∉ entered)

/-! ## Daemons on one file -/

structure State where
  clock : Nat
  file : LiveRowTombstones
  copies : Nat → LiveRowTombstones
  closes : Entries

/-- A call by a daemon, `elapsed` seconds after the one before it. -/
inductive Action where
  | recordClose (daemon : Nat) (identity : String) (elapsed : Nat)
  | touchClose (daemon : Nat) (identity : String) (elapsed : Nat)
  | reconcile (daemon : Nat) (entered : List String) (elapsed : Nat)
  | recordDeparture (daemon : Nat) (departure : LiveRowDeparture) (elapsed : Nat)
  | refresh (daemon : Nat) (elapsed : Nat)

/-- The daemon's copy and the file after a locked call. -/
def State.publish (state : State) (daemon now : Nat)
    (result : LiveRowTombstones × LiveRowTombstones × Bool) (closes : Entries) : State where
  clock := now
  file := result.1
  copies := Function.update state.copies daemon result.2.1
  closes := closes

def step (state : State) : Action → State
  | .recordClose daemon identity elapsed =>
      let now := state.clock + elapsed
      state.publish daemon now (state.file.recordClose identity now)
        (rememberClose state.closes identity now)
  | .touchClose daemon identity elapsed =>
      let now := state.clock + elapsed
      state.publish daemon now (state.file.touchClose identity now)
        (renewClose state.closes identity now)
  | .reconcile daemon entered elapsed =>
      let now := state.clock + elapsed
      state.publish daemon now (state.file.reconcile now entered)
        (forgetEntered state.closes entered)
  | .recordDeparture daemon departure elapsed =>
      state.publish daemon (state.clock + elapsed) (state.file.recordDeparture departure)
        state.closes
  | .refresh daemon elapsed =>
      let now := state.clock + elapsed
      { state with
        clock := now
        copies := Function.update state.copies daemon (state.file.load now) }

/-- No file yet, whatever the daemons have in memory. -/
def start (clock : Nat) (copies : Nat → LiveRowTombstones) : State where
  clock := clock
  file := ⟨∅, []⟩
  copies := copies
  closes := ∅

/-- Every close to be remembered blocks its row until it expires, and the file is
within its cap. -/
def Remembered (state : State) : Prop :=
  (∀ (identity : String) (recorded : Nat), state.closes[identity]? = some recorded →
      ∀ time, state.clock ≤ time → expired recorded time = false →
        (state.file.load time).blocks identity time = true) ∧
    state.file.entries.size ≤ maxTombstones

/-- A close that is recorded does not find an expired close of its row in the file. -/
def ClosesAnew (state : State) : Action → Prop
  | .recordClose _ identity elapsed =>
      ∀ recorded, state.file.entries[identity]? = some recorded →
        expired recorded (state.clock + elapsed) = false
  | _ => True

/-! ## The unexpired closes of the file -/

/-- The file holds the same unexpired closes as are to be remembered. -/
def Agree (entries closes : Entries) (now : Nat) : Prop :=
  ∀ (identity : String) (recorded : Nat), expired recorded now = false →
    (closes[identity]? = some recorded ↔ entries[identity]? = some recorded)

section Agree

variable {entries closes : Entries} {clock now : Nat} {identity : String}

theorem expired_eq_false {recorded now : Nat} :
    expired recorded now = false ↔ now - recorded < tombstoneTtlSecs := by
  simp [expired]

theorem expired_eq_true {recorded now : Nat} :
    expired recorded now = true ↔ tombstoneTtlSecs ≤ now - recorded := by
  simp [expired]

theorem unexpired_of_later {recorded : Nat} (later : clock ≤ now)
    (unexpired : expired recorded now = false) : expired recorded clock = false := by
  rw [expired_eq_false] at unexpired ⊢
  omega

theorem Agree.later (agree : Agree entries closes clock) (later : clock ≤ now) :
    Agree entries closes now :=
  fun identity recorded unexpired => agree identity recorded (unexpired_of_later later unexpired)

theorem Agree.insert (agree : Agree entries closes now) (identity : String) :
    Agree (entries.insert identity now) (closes.insert identity now) now := by
  intro other recorded unexpired
  rw [Std.ExtTreeMap.getElem?_insert, Std.ExtTreeMap.getElem?_insert]
  split
  · exact Iff.rfl
  · exact agree other recorded unexpired

theorem dated_surjective (close : ℕ ×ₗ String) : ∃ entry, dated entry = close :=
  ⟨((ofLex close).2, (ofLex close).1), rfl⟩

theorem snd_le_of_dated_lt {first second : String × Nat} (before : dated first < dated second) :
    first.2 ≤ second.2 := by
  rcases Prod.Lex.toLex_lt_toLex.mp before with earlier | ⟨same, _⟩
  · exact earlier.le
  · exact same.le

theorem snd_lt_of_dated_lt {first second : String × Nat} (sameIdentity : first.1 = second.1)
    (before : dated first < dated second) : first.2 < second.2 := by
  rcases Prod.Lex.toLex_lt_toLex.mp before with earlier | ⟨_, order⟩
  · exact earlier
  · exact absurd sameIdentity order.ne

/-- What is newer than an unexpired close is unexpired, so both sides count the same. -/
theorem Agree.newer_eq (agree : Agree entries closes now) {recorded : Nat}
    (unexpired : expired recorded now = false) :
    newer (datedEntries closes) (dated (identity, recorded)) =
      newer (datedEntries entries) (dated (identity, recorded)) := by
  apply newer_congr (nodup_datedEntries closes) (nodup_datedEntries entries)
  intro other above
  obtain ⟨entry, rfl⟩ := dated_surjective other
  have later := snd_le_of_dated_lt above
  rw [mem_datedEntries, mem_datedEntries]
  apply agree
  rw [expired_eq_false] at unexpired ⊢
  omega

theorem Agree.evict {tombstones : LiveRowTombstones}
    (agree : Agree tombstones.entries closes now) :
    Agree tombstones.evictOverCap.entries (keepNewest closes) now := by
  intro identity recorded unexpired
  rw [LiveRowTombstones.getElem?_evictOverCap, keepNewest, Std.ExtTreeMap.getElem?_filter',
    Option.filter_eq_some_iff, agree identity recorded unexpired, agree.newer_eq unexpired,
    decide_eq_true_eq]

/-- A question that only unexpired closes answer has the same answer on both sides. -/
theorem Agree.any_eq (agree : Agree entries closes now) {question : Nat → Bool}
    (unexpired : ∀ recorded, question recorded = true → expired recorded now = false) :
    closes[identity]?.any question = entries[identity]?.any question := by
  rw [Bool.eq_iff_iff, Option.any_eq_true, Option.any_eq_true]
  constructor
  · rintro ⟨recorded, remembered, answer⟩
    exact ⟨recorded, (agree identity recorded (unexpired recorded answer)).mp remembered, answer⟩
  · rintro ⟨recorded, found, answer⟩
    exact ⟨recorded, (agree identity recorded (unexpired recorded answer)).mpr found, answer⟩

theorem Agree.record {file : LiveRowTombstones} (agree : Agree file.entries closes now)
    (anew : ∀ recorded, file.entries[identity]? = some recorded → expired recorded now = false) :
    Agree (file.record identity now).entries (rememberClose closes identity now) now := by
  have sameAnswer : (closes[identity]?.any fun recorded => !expired recorded now) =
      file.entries.contains identity := by
    rw [agree.any_eq (by simp), Std.ExtTreeMap.contains_eq_isSome_getElem?]
    cases found : file.entries[identity]? with
    | none => rfl
    | some recorded => simp [anew recorded found]
  unfold LiveRowTombstones.record rememberClose
  rw [sameAnswer]
  split
  · exact agree
  · exact Agree.evict (agree.insert identity)

theorem Agree.touch {file : LiveRowTombstones} (agree : Agree file.entries closes now)
    (identity : String) :
    Agree (file.touch identity now).entries (renewClose closes identity now) now := by
  unfold LiveRowTombstones.touch renewClose
  rw [agree.any_eq fun recorded answer => by simpa using (Bool.and_eq_true_iff.mp answer).1]
  cases found : file.entries[identity]? with
  | none => exact agree
  | some recorded =>
      cases past : expired recorded now with
      | true =>
          intro other otherRecorded unexpired
          simp only [past, Option.any_some, Bool.not_true, Bool.false_and, Bool.false_eq_true,
            if_false, if_true, LiveRowTombstones.clear]
          rw [agree other otherRecorded unexpired, Std.ExtTreeMap.getElem?_erase]
          split
          · next same =>
              rw [← Std.LawfulEqCmp.compare_eq_iff_eq.mp same, found]
              constructor
              · intro recordedSame
                rw [Option.some.inj recordedSame, unexpired] at past
                simp at past
              · simp
          · exact Iff.rfl
      | false =>
          by_cases aged : tombstoneRenewalAgeSecs ≤ now - recorded
          · simpa [past, aged] using agree.insert identity
          · simpa [past, aged] using agree

theorem entries_gcDepartures (tombstones : LiveRowTombstones) (now : Nat) :
    (tombstones.gcDepartures now).entries = tombstones.entries := rfl

theorem entries_gc {file : LiveRowTombstones} (fits : file.entries.size ≤ maxTombstones)
    (now : Nat) :
    (file.gc now).entries = file.entries.filter fun _ recorded => !expired recorded now := by
  have smaller : (file.entries.filter fun _ recorded => !expired recorded now).size ≤
      maxTombstones := Std.ExtTreeMap.size_filter_le_size.trans fits
  simp only [LiveRowTombstones.gc, entries_gcDepartures, LiveRowTombstones.evictOverCap, smaller,
    if_true]

theorem getElem?_foldl_clear {tombstones : LiveRowTombstones} {entered : List String} :
    (entered.foldl LiveRowTombstones.clear tombstones).entries[identity]? =
      if identity ∈ entered then none else tombstones.entries[identity]? := by
  induction entered generalizing tombstones with
  | nil => simp
  | cons other rest inductionHypothesis =>
      rw [List.foldl_cons, inductionHypothesis, LiveRowTombstones.clear,
        Std.ExtTreeMap.getElem?_erase]
      by_cases isOther : other = identity
      · simp [isOther]
      · simp [isOther, Ne.symm isOther]

theorem Agree.reconcile {file : LiveRowTombstones} (agree : Agree file.entries closes now)
    (fits : file.entries.size ≤ maxTombstones) (entered : List String) :
    Agree (entered.foldl LiveRowTombstones.clear (file.gc now)).entries
      (forgetEntered closes entered) now := by
  intro identity recorded unexpired
  rw [getElem?_foldl_clear, entries_gc fits, forgetEntered, Std.ExtTreeMap.getElem?_filter',
    Std.ExtTreeMap.getElem?_filter', Option.filter_eq_some_iff, agree identity recorded unexpired]
  by_cases isEntered : identity ∈ entered
  · simp [isEntered]
  · simp [isEntered, unexpired]

end Agree

/-! ## Every call keeps the agreement -/

theorem entries_mutateShared (file : LiveRowTombstones)
    (mutate : LiveRowTombstones → LiveRowTombstones) :
    (file.mutateShared mutate).1.entries = (mutate file).entries := by
  simp only [LiveRowTombstones.mutateShared]
  split
  · rfl
  · next unchanged =>
      simp only [Bool.or_eq_true, decide_eq_true_eq, not_or, not_not] at unchanged
      exact unchanged.1.symm

theorem size_record_le {file : LiveRowTombstones} (fits : file.entries.size ≤ maxTombstones)
    (identity : String) (now : Nat) :
    (file.record identity now).entries.size ≤ maxTombstones := by
  unfold LiveRowTombstones.record
  split
  · exact fits
  · exact LiveRowTombstones.size_evictOverCap_le _

theorem contains_of_getElem? {entries : Entries} {identity : String} {recorded : Nat}
    (found : entries[identity]? = some recorded) : entries.contains identity = true := by
  rw [Std.ExtTreeMap.contains_eq_isSome_getElem?, found, Option.isSome_some]

theorem size_touch_le {file : LiveRowTombstones} (fits : file.entries.size ≤ maxTombstones)
    (identity : String) (now : Nat) :
    (file.touch identity now).entries.size ≤ maxTombstones := by
  unfold LiveRowTombstones.touch
  cases found : file.entries[identity]? with
  | none => exact fits
  | some recorded =>
      dsimp only
      split
      · exact Std.ExtTreeMap.size_erase_le.trans fits
      · split
        · dsimp only
          rw [Std.ExtTreeMap.size_insert, if_pos (contains_of_getElem? found)]
          exact fits
        · exact fits

theorem size_foldl_clear_le (tombstones : LiveRowTombstones) (entered : List String) :
    (entered.foldl LiveRowTombstones.clear tombstones).entries.size ≤ tombstones.entries.size := by
  induction entered generalizing tombstones with
  | nil => exact le_refl _
  | cons identity rest inductionHypothesis =>
      exact (inductionHypothesis (tombstones.clear identity)).trans Std.ExtTreeMap.size_erase_le

/-- The invariant of a file whose closes are all recorded anew. -/
structure Faithful (state : State) : Prop where
  fits : state.file.entries.size ≤ maxTombstones
  agree : Agree state.file.entries state.closes state.clock

theorem faithful_publish {state : State} {daemon now : Nat} {closes : Entries}
    {mutate : LiveRowTombstones → LiveRowTombstones}
    (fits : (mutate state.file).entries.size ≤ maxTombstones)
    (agree : Agree (mutate state.file).entries closes now) :
    Faithful (state.publish daemon now (state.file.mutateShared mutate) closes) := by
  constructor
  · change (state.file.mutateShared mutate).1.entries.size ≤ maxTombstones
    rwa [entries_mutateShared]
  · change Agree (state.file.mutateShared mutate).1.entries closes now
    rwa [entries_mutateShared]

theorem faithful_step (state : State) (action : Action) (faithful : Faithful state)
    (anew : ClosesAnew state action) : Faithful (step state action) := by
  have fits := faithful.fits
  cases action with
  | recordClose daemon identity elapsed =>
      have agree := faithful.agree.later (Nat.le_add_right state.clock elapsed)
      exact faithful_publish (size_record_le fits identity _) (agree.record anew)
  | touchClose daemon identity elapsed =>
      have agree := faithful.agree.later (Nat.le_add_right state.clock elapsed)
      exact faithful_publish (size_touch_le fits identity _) (agree.touch identity)
  | reconcile daemon entered elapsed =>
      have agree := faithful.agree.later (Nat.le_add_right state.clock elapsed)
      apply faithful_publish _ (agree.reconcile fits entered)
      apply (size_foldl_clear_le _ entered).trans
      rw [entries_gc fits]
      exact Std.ExtTreeMap.size_filter_le_size.trans fits
  | recordDeparture daemon departure elapsed =>
      have agree := faithful.agree.later (Nat.le_add_right state.clock elapsed)
      exact faithful_publish fits agree
  | refresh daemon elapsed =>
      exact ⟨fits, faithful.agree.later (Nat.le_add_right state.clock elapsed)⟩

theorem blocks_load {file : LiveRowTombstones} (fits : file.entries.size ≤ maxTombstones)
    {identity : String} {time : Nat} :
    (file.load time).blocks identity time = true ↔
      ∃ recorded, file.entries[identity]? = some recorded ∧ expired recorded time = false := by
  rw [LiveRowTombstones.blocks, LiveRowTombstones.load, entries_gc fits,
    Std.ExtTreeMap.getElem?_filter', Option.any_eq_true]
  simp only [Option.filter_eq_some_iff, Bool.not_eq_true']
  constructor
  · rintro ⟨recorded, ⟨found, unexpired⟩, _⟩
    exact ⟨recorded, found, unexpired⟩
  · rintro ⟨recorded, found, unexpired⟩
    exact ⟨recorded, ⟨found, unexpired⟩, unexpired⟩

theorem remembered_of_faithful (state : State) (faithful : Faithful state) : Remembered state := by
  refine ⟨?_, faithful.fits⟩
  intro identity recorded remembered time later unexpired
  apply (blocks_load faithful.fits).mpr
  refine ⟨recorded, ?_, unexpired⟩
  exact (faithful.agree identity recorded (unexpired_of_later later unexpired)).mp remembered

/-! ## A close lost on an expired one -/

theorem lt_of_expired {recorded now : Nat} (past : expired recorded now = true) :
    recorded < now := by
  have ttl : 0 < tombstoneTtlSecs := by decide
  have aged := expired_eq_true.mp past
  omega

/-- What is newer than a close recorded now is the same on both sides, also where the file
still has an expired close of the row. -/
theorem newer_insert_of_expired {entries closes : Entries} {identity : String}
    {recorded now : Nat} (agree : Agree entries closes now)
    (found : entries[identity]? = some recorded) (past : expired recorded now = true) :
    newer (datedEntries (closes.insert identity now)) (dated (identity, now)) =
      newer (datedEntries entries) (dated (identity, now)) := by
  apply newer_congr (nodup_datedEntries _) (nodup_datedEntries _)
  intro other above
  obtain ⟨entry, rfl⟩ := dated_surjective other
  rw [mem_datedEntries, mem_datedEntries, Std.ExtTreeMap.getElem?_insert]
  by_cases same : identity = entry.1
  -- Neither the new close nor the expired one is newer than the new close.
  · have later := snd_lt_of_dated_lt same above
    rw [if_pos (Std.LawfulEqCmp.compare_eq_iff_eq.mpr same), ← same, found]
    constructor
    · intro isNow
      exact absurd (Option.some.inj isNow) later.ne
    · intro isRecorded
      exact absurd (Option.some.inj isRecorded) ((lt_of_expired past).trans later).ne
  · have unexpired : expired entry.2 now = false := by
      have later := snd_le_of_dated_lt above
      have ttl : 0 < tombstoneTtlSecs := by decide
      rw [expired_eq_false]
      omega
    rw [if_neg (mt Std.LawfulEqCmp.compare_eq_iff_eq.mp same)]
    exact agree entry.1 entry.2 unexpired

/-- The expired close takes a place in the file, so the new one is among the newest. -/
theorem rememberClose_of_expired {file : LiveRowTombstones} {closes : Entries} {identity : String}
    {recorded now : Nat} (fits : file.entries.size ≤ maxTombstones)
    (agree : Agree file.entries closes now) (found : file.entries[identity]? = some recorded)
    (past : expired recorded now = true) :
    (rememberClose closes identity now)[identity]? = some now := by
  have forgotten : ¬ (closes[identity]?.any fun recorded => !expired recorded now) = true := by
    rw [agree.any_eq (by simp), found]
    simp [past]
  have few : newer (datedEntries (closes.insert identity now)) (dated (identity, now)) <
      maxTombstones := by
    calc newer (datedEntries (closes.insert identity now)) (dated (identity, now))
        = newer (datedEntries file.entries) (dated (identity, now)) :=
          newer_insert_of_expired agree found past
      _ ≤ newer (datedEntries file.entries) (dated (identity, recorded)) :=
          newer_anti (Prod.Lex.toLex_le_toLex.mpr (Or.inl (lt_of_expired past)))
      _ < (datedEntries file.entries).length := newer_lt_length (mem_datedEntries.mpr found)
      _ = file.entries.size := length_datedEntries file.entries
      _ ≤ maxTombstones := fits
  rw [rememberClose, if_neg forgotten, keepNewest, Std.ExtTreeMap.getElem?_filter',
    Std.ExtTreeMap.getElem?_insert_self, Option.filter_some, if_pos (decide_eq_true few)]

theorem not_remembered_of_expired (state : State) (action : Action) (faithful : Faithful state)
    (missed : ¬ ClosesAnew state action) : ¬ Remembered (step state action) := by
  cases action with
  | recordClose daemon identity elapsed =>
      have agree := faithful.agree.later (Nat.le_add_right state.clock elapsed)
      simp only [ClosesAnew, not_forall, Bool.not_eq_false] at missed
      obtain ⟨recorded, found, past⟩ := missed
      rintro ⟨remembered, fits⟩
      have recordedNow := rememberClose_of_expired faithful.fits agree found past
      have unexpired : expired (state.clock + elapsed) (state.clock + elapsed) = false := by
        simp [expired, tombstoneTtlSecs]
      have blocked :=
        remembered identity _ recordedNow (state.clock + elapsed) (le_refl _) unexpired
      obtain ⟨other, otherFound, otherUnexpired⟩ := (blocks_load fits).mp blocked
      have unchanged : (step state (.recordClose daemon identity elapsed)).file.entries =
          state.file.entries := by
        change (state.file.recordClose identity _).1.entries = state.file.entries
        rw [LiveRowTombstones.recordClose, entries_mutateShared, LiveRowTombstones.record,
          if_pos (contains_of_getElem? found)]
      rw [unchanged, found] at otherFound
      rw [← Option.some.inj otherFound, past] at otherUnexpired
      simp at otherUnexpired
  | touchClose daemon identity elapsed => exact absurd trivial missed
  | reconcile daemon entered elapsed => exact absurd trivial missed
  | recordDeparture daemon departure elapsed => exact absurd trivial missed
  | refresh daemon elapsed => exact absurd trivial missed

/-- Whatever the daemons and the order of their calls, every recorded close is blocked until
it is entered again, expires or is pushed out, and the file keeps to its cap, exactly when
no close is recorded over an expired one that is still in the file. -/
theorem remembered_iff_closesAnew (clock : Nat) (copies : Nat → LiveRowTombstones)
    (actions : List Action) :
    Always step Remembered (start clock copies) actions ↔
      Guarded step ClosesAnew (start clock copies) actions := by
  apply always_iff_guarded_of_breaks faithful_step remembered_of_faithful
    not_remembered_of_expired
  constructor
  · exact Nat.zero_le _
  · intro identity recorded _
    exact Iff.rfl

/-- A row is closed, and closed once more by another daemon when the first close has just
expired. -/
def closedAgain : List Action :=
  [.recordClose 0 "row-a" 0, .recordClose 1 "row-a" 259200]

theorem closedAgain_not_remembered :
    ¬ Always step Remembered (start 0 fun _ => ⟨∅, []⟩) closedAgain := by
  intro always
  have blocked := always.2.2.1 "row-a" 259200 (by decide +kernel) 259200 (by decide) (by decide)
  exact absurd blocked (by decide +kernel)

end Yggterm.Tombstones
