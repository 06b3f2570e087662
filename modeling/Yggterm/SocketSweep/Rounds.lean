import Mathlib.Data.Char
import Mathlib.Data.List.Lex
import Mathlib.Data.List.Sort
import Yggterm.Library.Runs
import Yggterm.SocketSweep.Classify

/-!
# Rounds of the socket sweep

`run_socket_sweep` of `socket_sweep.rs`: one round over the home directory, and the ledger
of dead sightings that carries from one round to the next.
-/

namespace Yggterm.SocketSweep

open Search Text

/-! ## The ledger file -/

/-- What `read_to_string` gives: nothing when the file is absent or cannot be read. -/
abbrev LedgerFile := Option (List Char)

/-- The sightings, the newest entry of a name first. -/
abbrev Ledger := List (Name × Nat)

def Ledger.insert (ledger : Ledger) (name : Name) (ms : Nat) : Ledger :=
  (name, ms) :: ledger.filter (fun entry => entry.1 ≠ name)

/-- One line of the file: a name, a tab and a time. -/
def parseLedgerLine (line : List Char) : Option (Name × Nat) := do
  let (name, ms) ← findText ['\t'] line
  some (name, ← parseUnsigned 64 (trim ms))

/-- `read_dead_ledger`. -/
def readDeadLedger (file : LedgerFile) : Ledger :=
  ((lines (file.getD [])).filterMap parseLedgerLine).foldl
    (fun ledger entry => ledger.insert entry.1 entry.2) []

def ledgerLine (entry : Name × Nat) : List Char := entry.1 ++ '\t' :: Nat.toDigits 10 entry.2

/-- `write_dead_ledger`. -/
def writeDeadLedger (ledger : Ledger) : List Char :=
  let body := ['\n'].intercalate ((ledger.map ledgerLine).mergeSort (· ≤ ·))
  if body = [] then body else body ++ ['\n']

/-! ## One round -/

structure SocketSweepOutcome where
  removed : Nat
  awaitingConfirmation : Nat
  keptLive : Nat
  degraded : Bool

/-- What a round of the sweep finds.  A listing or a write that fails is a field here:
`entries` is empty-handed when the directory cannot be read, and `leftInLedger` is what a
failed write leaves in the ledger file. -/
structure Round where
  census : LiveDaemonCensus
  nowMs : Nat
  ownSocket : Option SocketPath
  entries : Option (List Name)
  canonicalize : SocketPath → Option SocketPath
  readable : SocketPath → Bool
  procPidAlive : Nat → Option Bool
  removes : SocketPath → Bool
  leftInLedger : Option LedgerFile

section Home

variable (homeDir : List Char)

/-- The sweeping daemon's own socket, resolved. -/
def Round.ownIdentity (round : Round) : Option SocketPath :=
  round.ownSocket.map (fun own => (round.canonicalize own).getD own)

def Round.verdict (round : Round) (name : Name) (firstSeen : Option Nat) : SocketVerdict :=
  classifySocketEntry round.procPidAlive ⟨homeDir, name⟩ (round.canonicalize ⟨homeDir, name⟩)
    (round.readable ⟨homeDir, name⟩) round.census round.ownIdentity firstSeen round.nowMs

/-- What a round has done so far. -/
structure Sweep where
  outcome : SocketSweepOutcome
  next : Ledger
  unlinked : List Name

def Round.sweepEntry (round : Round) (previous : Ledger) (sweep : Sweep) (name : Name) : Sweep :=
  let firstSeen := previous.lookup name
  match round.verdict homeDir name firstSeen with
  | .notOurs => sweep
  | .keep _ =>
      { sweep with
        outcome := { sweep.outcome with keptLive := sweep.outcome.keptLive + 1 } }
  | .confirmLater =>
      { sweep with
        next := sweep.next.insert name (firstSeen.getD round.nowMs)
        outcome :=
          { sweep.outcome with awaitingConfirmation := sweep.outcome.awaitingConfirmation + 1 } }
  | .remove =>
      if round.removes ⟨homeDir, name⟩ then
        { sweep with
          outcome := { sweep.outcome with removed := sweep.outcome.removed + 1 }
          unlinked := name :: sweep.unlinked }
      else { sweep with next := sweep.next.insert name (firstSeen.getD round.nowMs) }

/-- `run_socket_sweep`: what the round has done, and the ledger file it leaves. -/
def Round.runSocketSweep (round : Round) (file : LedgerFile) : Sweep × LedgerFile :=
  let start : Sweep := ⟨⟨0, 0, 0, !round.census.complete⟩, [], []⟩
  match round.entries with
  | none => (start, file)
  | some entries =>
      let sweep := entries.foldl (round.sweepEntry homeDir (readDeadLedger file)) start
      (sweep, round.leftInLedger.getD (some (writeDeadLedger sweep.next)))

/-- The ledger file after some rounds, the first of which finds none. -/
def ledgerAfter (rounds : List Round) : LedgerFile :=
  Runs.run (fun file round => (round.runSocketSweep homeDir file).2) none rounds

/-- The round, if it could list the directory, listed the file and classified it dead;
and unless the pid in the name was the ground for it, the census was complete. -/
def Round.FindsDead (round : Round) (name : Name) : Prop :=
  ∀ entries, round.entries = some entries → name ∈ entries ∧
    round.verdict homeDir name none = .confirmLater ∧
    (pidWitness name = none → round.census.complete = true)

end Home

/-! ## The ledger comes back as it was written -/

theorem mem_of_mem_insert {ledger : Ledger} {name : Name} {ms : Nat} {entry : Name × Nat}
    (member : entry ∈ ledger.insert name ms) : entry = (name, ms) ∨ entry ∈ ledger := by
  rcases List.mem_cons.mp member with isNew | isOld
  · exact .inl isNew
  · exact .inr (List.mem_filter.mp isOld).1

theorem mem_of_lookup {ledger : Ledger} {name : Name} {ms : Nat}
    (found : ledger.lookup name = some ms) : (name, ms) ∈ ledger := by
  induction ledger with
  | nil => cases found
  | cons entry rest inductionHypothesis =>
      rw [List.lookup_cons] at found
      split at found
      · next same =>
          cases found
          rw [eq_of_beq same]
          exact List.mem_cons_self
      · exact List.mem_cons_of_mem _ (inductionHypothesis found)

theorem parseLedgerLine_ledgerLine {entry read : Name × Nat} (oneField : OneField entry.1)
    (parsed : parseLedgerLine (ledgerLine entry) = some read) : read = entry := by
  simp only [parseLedgerLine, ledgerLine, findText_singleton oneField.1, Option.bind_eq_bind,
    Option.bind_some, trim_toDigits, parseUnsigned_toDigits] at parsed
  split at parsed
  · cases parsed
    rfl
  · cases parsed

theorem ledgerLine_clean {entry : Name × Nat} (oneField : OneField entry.1) :
    '\n' ∉ ledgerLine entry ∧ (ledgerLine entry).getLast? ≠ some '\r' := by
  have isDigits : ∀ char ∈ Nat.toDigits 10 entry.2, char.isDigit = true :=
    fun char member => Nat.isDigit_of_mem_toDigits (by decide) (by decide) member
  constructor
  · intro member
    simp only [ledgerLine, List.mem_append, List.mem_cons] at member
    rcases member with inName | isTab | inDigits
    · exact oneField.2 inName
    · exact absurd isTab (by decide)
    · exact absurd (isDigits _ inDigits) (by decide)
  · intro isReturn
    have nonempty : Nat.toDigits 10 entry.2 ≠ [] := Nat.toDigits_ne_nil
    rw [ledgerLine, List.getLast?_append_of_ne_nil _ (by simp),
      List.getLast?_cons_of_ne_nil nonempty]
      at isReturn
    exact absurd (isDigits _ (List.mem_of_getLast? isReturn)) (by decide)

theorem mem_of_mem_foldl_insert {entries ledger : Ledger} {entry : Name × Nat}
    (member : entry ∈ entries.foldl (fun ledger entry => ledger.insert entry.1 entry.2) ledger) :
    entry ∈ entries ∨ entry ∈ ledger := by
  induction entries generalizing ledger with
  | nil => exact .inr member
  | cons first rest inductionHypothesis =>
      rcases inductionHypothesis member with later | inserted
      · exact .inl (List.mem_cons_of_mem _ later)
      · rcases mem_of_mem_insert inserted with rfl | before
        · exact .inl List.mem_cons_self
        · exact .inr before

/-- The entries read from a ledger file are those that were written. -/
theorem mem_of_mem_readDeadLedger {ledger : Ledger} (oneField : ∀ entry ∈ ledger, OneField entry.1)
    {entry : Name × Nat} (member : entry ∈ readDeadLedger (some (writeDeadLedger ledger))) :
    entry ∈ ledger := by
  have sortedMem : ∀ line, line ∈ (ledger.map ledgerLine).mergeSort (· ≤ ·) ↔
      ∃ written ∈ ledger, ledgerLine written = line := by
    intro line
    rw [List.mem_mergeSort, List.mem_map]
  obtain fromLine | absurdly := mem_of_mem_foldl_insert member
  · obtain ⟨line, isLine, parsed⟩ := List.mem_filterMap.mp fromLine
    rw [Option.getD_some, writeDeadLedger] at isLine
    split at isLine
    · next empty =>
        rw [empty] at isLine
        cases isLine
    · next nonempty =>
        have someLines : (ledger.map ledgerLine).mergeSort (· ≤ ·) ≠ [] := by
          intro none
          exact nonempty (by rw [none]; rfl)
        rw [intercalate_newline_append someLines, ← List.append_nil (List.flatMap _ _),
          lines_flatMap_newline, lines_nil, List.append_nil] at isLine
        · obtain ⟨sorted, inSorted, isSorted⟩ := List.mem_map.mp isLine
          obtain ⟨written, inLedger, rfl⟩ := (sortedMem sorted).mp inSorted
          rw [dropReturn, if_neg (ledgerLine_clean (oneField written inLedger)).2] at isSorted
          rw [← isSorted] at parsed
          rw [parseLedgerLine_ledgerLine (oneField written inLedger) parsed]
          exact inLedger
        · intro line isLine
          obtain ⟨written, inLedger, rfl⟩ := (sortedMem line).mp isLine
          exact (ledgerLine_clean (oneField written inLedger)).1
  · cases absurdly

/-! ## One round -/

section Rounds

variable {homeDir : List Char}

/-- The grounds on which the round takes the file for dead. -/
def Round.Proves (homeDir : List Char) (round : Round) (name : Name) : Prop :=
  ProvedDead round.procPidAlive ⟨homeDir, name⟩ (round.canonicalize ⟨homeDir, name⟩) round.census
    round.ownIdentity

theorem Round.verdict_cases (round : Round) (name : Name) :
    (round.Proves homeDir name ∧ ∀ firstSeen, round.verdict homeDir name firstSeen =
      confirm firstSeen round.nowMs) ∨
    ∃ verdict : SocketVerdict, verdict.Spares ∧ ∀ firstSeen,
      round.verdict homeDir name firstSeen = verdict :=
  classifySocketEntry_cases _ _ _ _ _ _ _

/-- A sighting or a removal is of a file that the round proved dead. -/
theorem Round.proves_of_not_spares {round : Round} {name : Name} {firstSeen : Option Nat}
    (dead : ¬ (round.verdict homeDir name firstSeen).Spares) :
    round.Proves homeDir name ∧ round.verdict homeDir name none = .confirmLater ∧
      round.verdict homeDir name firstSeen = confirm firstSeen round.nowMs := by
  obtain ⟨proves, confirms⟩ | ⟨verdict, spares, isVerdict⟩ := round.verdict_cases name
  · exact ⟨proves, confirms none, confirms firstSeen⟩
  · rw [isVerdict firstSeen] at dead
    exact absurd spares dead

/-- What holds of the entries a round carries over and of the files it unlinks. -/
structure Round.Accounts (homeDir : List Char) (round : Round) (previous : Ledger)
    (entries : List Name) (sweep : Sweep) : Prop where
  carried : ∀ entry ∈ sweep.next, entry.1 ∈ entries ∧
    ¬ (round.verdict homeDir entry.1 (previous.lookup entry.1)).Spares ∧
    entry.2 = (previous.lookup entry.1).getD round.nowMs
  unlinked : ∀ name ∈ sweep.unlinked, name ∈ entries ∧
    round.verdict homeDir name (previous.lookup name) = .remove

theorem Round.accounts_sweepEntry {round : Round} {previous : Ledger} {entries : List Name}
    {sweep : Sweep} (accounts : round.Accounts homeDir previous entries sweep) {name : Name}
    (listed : name ∈ entries) :
    round.Accounts homeDir previous entries (round.sweepEntry homeDir previous sweep name) := by
  have carriedInsert : ¬ (round.verdict homeDir name (previous.lookup name)).Spares →
      ∀ entry ∈ sweep.next.insert name ((previous.lookup name).getD round.nowMs),
        entry.1 ∈ entries ∧
        ¬ (round.verdict homeDir entry.1 (previous.lookup entry.1)).Spares ∧
        entry.2 = (previous.lookup entry.1).getD round.nowMs := by
    intro dead entry member
    rcases mem_of_mem_insert member with rfl | before
    · exact ⟨listed, dead, rfl⟩
    · exact accounts.carried entry before
  rw [sweepEntry]
  cases isVerdict : round.verdict homeDir name (previous.lookup name) with
  | notOurs => exact accounts
  | keep reason => exact ⟨accounts.carried, accounts.unlinked⟩
  | confirmLater =>
      rw [isVerdict] at carriedInsert
      exact ⟨carriedInsert fun spares => spares.1 rfl, accounts.unlinked⟩
  | remove =>
      rw [isVerdict] at carriedInsert
      by_cases removed : round.removes ⟨homeDir, name⟩ = true
      · simp only [removed, if_true]
        refine ⟨accounts.carried, fun gone member => ?_⟩
        rcases List.mem_cons.mp member with rfl | before
        · exact ⟨listed, isVerdict⟩
        · exact accounts.unlinked gone before
      · simp only [removed]
        exact ⟨carriedInsert fun spares => spares.2 rfl, accounts.unlinked⟩

theorem Round.accounts_runSocketSweep (homeDir : List Char) (round : Round) (file : LedgerFile)
    {entries : List Name} (listed : round.entries = some entries) :
    round.Accounts homeDir (readDeadLedger file) entries (round.runSocketSweep homeDir file).1 := by
  simp only [runSocketSweep, listed]
  apply List.foldlRecOn entries
  · constructor
    · intro entry member
      cases member
    · intro name member
      cases member
  · intro sweep accounts name member
    exact accounts_sweepEntry accounts member

/-- The ledger of sightings. -/
def Sighted (file : LedgerFile) (name : Name) (since : Nat) : Prop :=
  (readDeadLedger file).lookup name = some since

/-- The round sees the file dead and has no sighting of it. -/
def Round.FirstSights (homeDir : List Char) (file : LedgerFile) (round : Round) (name : Name) :
    Prop :=
  (readDeadLedger file).lookup name = none ∧
    ∃ entries, round.entries = some entries ∧ name ∈ entries ∧
      round.verdict homeDir name none = .confirmLater

theorem Round.findsDead_of_not_spares {round : Round} {entries : List Name}
    (listed : round.entries = some entries) {name : Name} (member : name ∈ entries)
    {firstSeen : Option Nat} (dead : ¬ (round.verdict homeDir name firstSeen).Spares) :
    round.FindsDead homeDir name := by
  obtain ⟨proves, classified, _⟩ := proves_of_not_spares dead
  intro others isOthers
  obtain rfl : entries = others := Option.some.inj (listed.symm.trans isOthers)
  exact ⟨member, classified, proves.complete_of_unwitnessed⟩

/-- A round that writes its ledger carries a sighting only of a file it finds dead. -/
theorem Round.runSocketSweep_renews {round : Round} (written : round.leftInLedger = none) :
    Watches.Renews (fun file round => (Round.runSocketSweep homeDir round file).2) Round.nowMs
      Sighted (Round.FirstSights homeDir) (Round.FindsDead homeDir) round := by
  intro file name since sighted
  cases listed : round.entries with
  | none =>
      simp only [runSocketSweep, listed] at sighted
      refine ⟨fun entries isListed => ?_, .inl sighted⟩
      rw [listed] at isListed
      cases isListed
  | some entries =>
      have accounts := round.accounts_runSocketSweep homeDir file listed
      have isFile : (round.runSocketSweep homeDir file).2 =
          some (writeDeadLedger (round.runSocketSweep homeDir file).1.next) := by
        simp [runSocketSweep, listed, written]
      have oneField : ∀ entry ∈ (round.runSocketSweep homeDir file).1.next, OneField entry.1 := by
        intro entry member
        exact (proves_of_not_spares (accounts.carried entry member).2.1).1.oneField
      simp only [Sighted, isFile] at sighted
      obtain ⟨member, dead, isSince⟩ := accounts.carried _
        (mem_of_mem_readDeadLedger oneField (mem_of_lookup sighted))
      refine ⟨findsDead_of_not_spares listed member dead, ?_⟩
      cases before : (readDeadLedger file).lookup name with
      | some first =>
          simp only [before, Option.getD_some] at isSince
          exact .inl (isSince ▸ before)
      | none =>
          simp only [before, Option.getD_none] at isSince
          exact .inr ⟨⟨before, entries, listed, member, (proves_of_not_spares dead).2.1⟩, isSince⟩

end Rounds

/-! ## A socket is unlinked only after a day of proof

Whole runs of the sweep: what the rounds before it, the census of the round and the name
itself say of a file that is unlinked. -/

/-- What a round never unlinks.  A pid in the name that is proved dead outweighs the
census; without one, lock files may be listened on and aliases of a listening socket may
be of a live version, and nothing else may. -/
structure Round.MayUnlink (homeDir : List Char) (round : Round) (name : Name) : Prop where
  notOwn : ∀ own, round.ownSocket = some own →
    (parseVersionedServerSocketName own.name).isSome → own ≠ ⟨homeDir, name⟩
  unheard : pidWitness name = none → parseLockName name = none →
    ⟨homeDir, name⟩ ∉ round.census.listening
  notLive : pidWitness name = none → ∀ version, versionOf name = some version →
    version ∈ round.census.liveVersions → (parseVersionedServerSocketName name).isSome ∧
      IsAlias (round.canonicalize ⟨homeDir, name⟩) round.census
  degraded : round.census.complete = false →
    ∃ pid, pidWitness name = some pid ∧ round.procPidAlive pid = some false

variable {homeDir : List Char} {round : Round} {name : Name}

theorem Round.mayUnlink_of_proves (proves : round.Proves homeDir name) :
    round.MayUnlink homeDir name where
  notOwn := by
    rintro own isOwn versioned rfl
    cases proves with
    | versioned named complete foreign unheard stale =>
        cases resolved : round.canonicalize ⟨homeDir, name⟩ with
        | none => exact (foreign ⟨homeDir, name⟩ (by simp [ownIdentity, isOwn, resolved])).1 rfl
        | some target => exact (foreign target (by simp [ownIdentity, isOwn, resolved])).2 resolved
    | owner unversioned => simp [unversioned] at versioned
    | lock unversioned => simp [unversioned] at versioned
    | handoff unversioned => simp [unversioned] at versioned
  unheard := fun unwitnessed unlocked => ProvedDead.unheard proves unwitnessed unlocked
  notLive := fun unwitnessed _ isVersion live =>
    ProvedDead.alias_of_live proves unwitnessed isVersion live
  degraded := by
    intro incomplete
    cases proves with
    | versioned named complete => simp [incomplete] at complete
    | owner unversioned named gone => exact ⟨_, named, gone⟩
    | lock unversioned unwitnessed named complete => simp [incomplete] at complete
    | handoff unversioned unwitnessed unlocked named complete => simp [incomplete] at complete

/-- An unlinked file is proved dead now and was first seen dead a day ago. -/
theorem Round.sighted_of_unlinked {file : LedgerFile}
    (unlinked : name ∈ (round.runSocketSweep homeDir file).1.unlinked) :
    round.FindsDead homeDir name ∧ round.Proves homeDir name ∧
      ∃ since, Sighted file name since ∧ since + socketDeadConfirmMs ≤ round.nowMs := by
  cases listed : round.entries with
  | none =>
      simp only [runSocketSweep, listed] at unlinked
      cases unlinked
  | some entries =>
      obtain ⟨member, isRemove⟩ :=
        (round.accounts_runSocketSweep homeDir file listed).unlinked name unlinked
      have dead : ¬ (round.verdict homeDir name ((readDeadLedger file).lookup name)).Spares :=
        fun spares => spares.2 isRemove
      obtain ⟨proves, _, confirms⟩ := proves_of_not_spares dead
      refine ⟨findsDead_of_not_spares listed member dead, proves, ?_⟩
      exact exists_of_confirm_eq_remove (confirms.symm.trans isRemove)

/-- A round that lists one file of a home without daemons. -/
def quietRound (nowMs : Nat) (name : Name) : Round where
  census := ⟨[], true, [], true⟩
  nowMs := nowMs
  ownSocket := none
  entries := some [name]
  canonicalize := fun _ => none
  readable := fun _ => true
  procPidAlive := fun _ => some false
  removes := fun _ => true
  leftInLedger := none

end Yggterm.SocketSweep
