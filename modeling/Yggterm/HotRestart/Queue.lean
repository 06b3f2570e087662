import Mathlib.Algebra.Ring.Nat
import Mathlib.Data.List.Nodup
import Mathlib.Data.Prod.Lex
import Mathlib.Order.WithBot
import Yggterm.Library.Runs
import Yggterm.Library.Text

/-!
# The hot-restart queue

One file (`yggterm-server/src/hot_restart_queue.rs`) holds the one swap a host owes.
A newer target replaces an older one, a drainer records its attempts in the entry,
and a relay hand-off declares a boundary at which the next attempt may run at once.
-/

namespace Yggterm.HotRestart

open Runs Text

/-- Versions are compared part by part. -/
abbrev VersionTriple := ℕ ×ₗ ℕ ×ₗ ℕ

def parseDaemonVersionTriple (version : List Char) : Option VersionTriple :=
  let parts := version.splitOn '.'
  do
    let major ← parseUnsigned 64 (trim (← parts[0]?))
    let minor ← parseUnsigned 64 (trim (← parts[1]?))
    let patch ← parseUnsigned 64 (trim (parts[2]?.getD ['0']))
    some (toLex (major, toLex (minor, patch)))

structure QueuedHotRestart where
  targetVersion : List Char
  daemonExecutable : String
  requestedBy : String
  requestedAtMs : Nat
  attempts : Nat
  lastAttemptMs : Option Nat
  lastOutcome : Option String
  relayBoundaryAtMs : Option Nat
  relayBoundaryBy : Option String
  deriving DecidableEq

/-- The version as the queue compares it: one that cannot be read is below every other. -/
def QueuedHotRestart.version (request : QueuedHotRestart) : WithBot VersionTriple :=
  parseDaemonVersionTriple (trim request.targetVersion)

inductive QueueDecision where
  | queued
  | superseded (replacedVersion : List Char)
  | unchanged
  | ignored (reason : String)
  deriving DecidableEq

def QueueDecision.writes : QueueDecision → Bool
  | .queued => true
  | .superseded _ => true
  | .unchanged => false
  | .ignored _ => false

def decideQueue (existing : Option QueuedHotRestart) (incoming : QueuedHotRestart) :
    QueueDecision :=
  match parseDaemonVersionTriple (trim incoming.targetVersion) with
  | none => .ignored "target version is not a version triple"
  | some incomingTriple =>
      match existing with
      | none => .queued
      | some existingEntry =>
          match parseDaemonVersionTriple (trim existingEntry.targetVersion) with
          | none => .superseded existingEntry.targetVersion
          | some existingTriple =>
              if existingTriple < incomingTriple then .superseded existingEntry.targetVersion
              else if incomingTriple = existingTriple then .unchanged
              else .ignored "a newer swap is already queued"

/-- The `u32` counter saturates. -/
def maxAttempts : Nat := 2 ^ 32 - 1

def QueuedHotRestart.withAttempt (request : QueuedHotRestart) (nowMs : Nat) (outcome : String) :
    QueuedHotRestart :=
  { request with
    attempts := min (request.attempts + 1) maxAttempts
    lastAttemptMs := some nowMs
    lastOutcome := some outcome }

def QueuedHotRestart.withBoundary (request : QueuedHotRestart) (nowMs : Nat)
    (declaredBy : String) : QueuedHotRestart :=
  { request with
    relayBoundaryAtMs := some nowMs
    relayBoundaryBy := some declaredBy }

def relayBoundaryIsUnspent (request : QueuedHotRestart) : Bool :=
  match request.relayBoundaryAtMs, request.lastAttemptMs with
  | none, _ => false
  | some _, none => true
  | some boundary, some lastAttempt => lastAttempt < boundary

def attemptIsDue (request : QueuedHotRestart) (nowMs intervalMs : Nat) : Bool :=
  relayBoundaryIsUnspent request ||
    match request.lastAttemptMs with
    | none => true
    | some last => intervalMs ≤ nowMs - last

inductive RelayBoundaryOutcome where
  | declared (targetVersion : List Char) (waitingMs : Nat)
  | nothingOwed
  deriving DecidableEq

/-! ## The file

`saved` says whether the write of the file succeeds; the source ignores the answer. -/

abbrev QueueFile := Option QueuedHotRestart

def save (file : QueueFile) (saved : Bool) (request : QueuedHotRestart) : QueueFile :=
  if saved then some request else file

def enqueue (file : QueueFile) (saved : Bool) (incoming : QueuedHotRestart) :
    QueueFile × QueueDecision :=
  let decision := decideQueue file incoming
  (if decision.writes then save file saved incoming else file, decision)

def recordAttempt (file : QueueFile) (saved : Bool) (nowMs : Nat) (outcome : String) : QueueFile :=
  match file with
  | none => file
  | some request => save file saved (request.withAttempt nowMs outcome)

def declareRelayBoundary (file : QueueFile) (saved : Bool) (nowMs : Nat) (declaredBy : String) :
    QueueFile × RelayBoundaryOutcome :=
  match file with
  | none => (file, .nothingOwed)
  | some request =>
      (save file saved (request.withBoundary nowMs declaredBy),
        .declared request.targetVersion (nowMs - request.requestedAtMs))

/-! ## The queue moves forward only

Along every run of calls the queued version never falls, the time of the request
stands while the version does, and a declared boundary releases at most one
recorded attempt. -/

inductive Call where
  | enqueue (incoming : QueuedHotRestart)
  | recordAttempt (outcome : String)
  | declareRelayBoundary (declaredBy : String)
  | decideQueue (incoming : QueuedHotRestart)

/-- A call, the time since the call before it, and whether its write succeeds. -/
structure Step where
  elapsedMs : Nat
  saved : Bool
  call : Call

/-- The file and the clock.  Beside them, the boundaries declared so far are counted:
`boundary` is the one the file holds, and `released` has, for each recorded attempt
that a boundary made due, that boundary. -/
structure Host where
  file : QueueFile
  clock : Nat
  declared : Nat
  boundary : Option Nat
  released : List Nat

def Host.initial (file : QueueFile) (clock : Nat) : Host :=
  { file, clock, declared := 0, boundary := none, released := [] }

/-- The boundary that makes an attempt due now. -/
def Host.releasing (host : Host) (intervalMs : Nat) : Option Nat :=
  match host.file with
  | none => none
  | some request =>
      if attemptIsDue request host.clock intervalMs ∧ relayBoundaryIsUnspent request then
        host.boundary
      else none

/-- The calls at one moment. -/
def Host.perform (intervalMs : Nat) (host : Host) (saved : Bool) : Call → Host
  | .enqueue incoming =>
      let (file, decision) := HotRestart.enqueue host.file saved incoming
      { host with
        file
        boundary := if decision.writes && saved then none else host.boundary }
  | .recordAttempt outcome =>
      { host with
        file := HotRestart.recordAttempt host.file saved host.clock outcome
        released :=
          if saved then host.released ++ (host.releasing intervalMs).toList else host.released }
  | .declareRelayBoundary declaredBy =>
      let (file, outcome) := HotRestart.declareRelayBoundary host.file saved host.clock declaredBy
      if saved ∧ outcome ≠ .nothingOwed then
        { host with file, declared := host.declared + 1, boundary := some host.declared }
      else { host with file }
  | .decideQueue _ => host

def Host.step (intervalMs : Nat) (host : Host) (step : Step) : Host :=
  Host.perform intervalMs { host with clock := host.clock + step.elapsedMs } step.saved step.call

/-! ### What a call does to the file -/

/-- Only a readable version above the queued one is written. -/
theorem version_lt_of_writes {existing : QueueFile} {incoming : QueuedHotRestart}
    (writes : (decideQueue existing incoming).writes) :
    incoming.version ≠ ⊥ ∧ ∀ entry, existing = some entry → entry.version < incoming.version := by
  cases isTriple : parseDaemonVersionTriple (trim incoming.targetVersion) with
  | none => simp [decideQueue, isTriple, QueueDecision.writes] at writes
  | some triple =>
      have isVersion : incoming.version = (triple : WithBot VersionTriple) := isTriple
      refine ⟨by simp [isVersion], ?_⟩
      rintro entry rfl
      rw [isVersion]
      cases isEntry : parseDaemonVersionTriple (trim entry.targetVersion) with
      | none =>
          have unread : entry.version = ⊥ := isEntry
          rw [unread]
          exact WithBot.bot_lt_coe triple
      | some entryTriple =>
          have isEntryVersion : entry.version = (entryTriple : WithBot VersionTriple) := isEntry
          rw [isEntryVersion, WithBot.coe_lt_coe]
          simp only [decideQueue, isTriple, isEntry] at writes
          split at writes
          · next below => exact below
          · split at writes <;> simp [QueueDecision.writes] at writes

theorem Host.perform_unsaved (intervalMs : Nat) (host : Host) (call : Call) :
    host.perform intervalMs false call = host := by
  obtain ⟨file, clock, declared, boundary, released⟩ := host
  cases call with
  | enqueue incoming => simp [perform, HotRestart.enqueue, save]
  | recordAttempt outcome =>
      cases file <;> simp [perform, HotRestart.recordAttempt, save]
  | declareRelayBoundary declaredBy =>
      cases file <;> simp [perform, HotRestart.declareRelayBoundary, save]
  | decideQueue incoming => rfl

theorem Host.perform_enqueue (intervalMs : Nat) (host : Host) (incoming : QueuedHotRestart) :
    host.perform intervalMs true (.enqueue incoming) =
      if (decideQueue host.file incoming).writes then
        { host with file := some incoming, boundary := none }
      else host := by
  by_cases writes : (decideQueue host.file incoming).writes = true <;>
    simp [perform, HotRestart.enqueue, save, writes]

/-- With nothing queued, there is no attempt to record and no boundary to declare. -/
theorem Host.perform_of_empty (intervalMs : Nat) {host : Host} (empty : host.file = none) :
    (∀ outcome, host.perform intervalMs true (.recordAttempt outcome) = host) ∧
      ∀ declaredBy, host.perform intervalMs true (.declareRelayBoundary declaredBy) = host := by
  obtain ⟨file, clock, declared, boundary, released⟩ := host
  obtain rfl : file = none := empty
  constructor
  · intro outcome
    simp [perform, HotRestart.recordAttempt, releasing]
  · intro declaredBy
    simp [perform, HotRestart.declareRelayBoundary]

theorem Host.perform_recordAttempt (intervalMs : Nat) {host : Host} {request : QueuedHotRestart}
    (isFile : host.file = some request) (outcome : String) :
    host.perform intervalMs true (.recordAttempt outcome) =
      { host with
        file := some (request.withAttempt host.clock outcome)
        released := host.released ++ (host.releasing intervalMs).toList } := by
  simp [perform, HotRestart.recordAttempt, save, isFile]

theorem Host.perform_declareRelayBoundary (intervalMs : Nat) {host : Host}
    {request : QueuedHotRestart} (isFile : host.file = some request) (declaredBy : String) :
    host.perform intervalMs true (.declareRelayBoundary declaredBy) =
      { host with
        file := some (request.withBoundary host.clock declaredBy)
        declared := host.declared + 1
        boundary := some host.declared } := by
  simp [perform, HotRestart.declareRelayBoundary, save, isFile]

/-- What one call does: nothing, a request above the queued one is written, an attempt
is recorded, or a boundary declared. -/
theorem Host.perform_cases (intervalMs : Nat) (host : Host) (saved : Bool) (call : Call) :
    host.perform intervalMs saved call = host ∨
      (∃ incoming, incoming.version ≠ ⊥ ∧
        (∀ entry, host.file = some entry → entry.version < incoming.version) ∧
          host.perform intervalMs saved call =
            { host with file := some incoming, boundary := none }) ∨
      (∃ request outcome, host.file = some request ∧
        host.perform intervalMs saved call =
          { host with
            file := some (request.withAttempt host.clock outcome)
            released := host.released ++ (host.releasing intervalMs).toList }) ∨
      ∃ request declaredBy, host.file = some request ∧
        host.perform intervalMs saved call =
          { host with
            file := some (request.withBoundary host.clock declaredBy)
            declared := host.declared + 1
            boundary := some host.declared } := by
  cases saved with
  | false => exact Or.inl (host.perform_unsaved intervalMs call)
  | true =>
      cases call with
      | enqueue incoming =>
          rw [perform_enqueue]
          split
          · next writes =>
              obtain ⟨readable, above⟩ := version_lt_of_writes writes
              exact Or.inr (Or.inl ⟨incoming, readable, above, rfl⟩)
          · exact Or.inl rfl
      | recordAttempt outcome =>
          cases isFile : host.file with
          | none => exact Or.inl ((perform_of_empty intervalMs isFile).1 outcome)
          | some request =>
              have performed := perform_recordAttempt intervalMs isFile outcome
              exact Or.inr (Or.inr (Or.inl ⟨request, outcome, rfl, performed⟩))
      | declareRelayBoundary declaredBy =>
          cases isFile : host.file with
          | none => exact Or.inl ((perform_of_empty intervalMs isFile).2 declaredBy)
          | some request =>
              have performed := perform_declareRelayBoundary intervalMs isFile declaredBy
              exact Or.inr (Or.inr (Or.inr ⟨request, declaredBy, rfl, performed⟩))
      | decideQueue incoming => exact Or.inl rfl

/-! ### Versions and request times -/

/-- A queued request is followed by one whose version is not below it, and whose
request time is the same while the version is. -/
def Forward (before after : QueueFile) : Prop :=
  ∀ entry, before = some entry →
    ∃ later, after = some later ∧ entry.version ≤ later.version ∧
      (later.version = entry.version → later.requestedAtMs = entry.requestedAtMs)

theorem Forward.refl (file : QueueFile) : Forward file file :=
  fun entry isFile => ⟨entry, isFile, le_refl _, fun _ => rfl⟩

theorem Forward.trans {first second third : QueueFile} (earlier : Forward first second)
    (later : Forward second third) : Forward first third := by
  intro entry isFirst
  obtain ⟨middle, isSecond, rises, kept⟩ := earlier entry isFirst
  obtain ⟨last, isThird, risesOn, keptOn⟩ := later middle isSecond
  refine ⟨last, isThird, rises.trans risesOn, ?_⟩
  intro same
  have sameMiddle : middle.version = entry.version := le_antisymm (same ▸ risesOn) rises
  exact (keptOn (same.trans sameMiddle.symm)).trans (kept sameMiddle)

/-- Whatever is changed in a request beside its version and its time. -/
theorem Forward.of_kept {entry kept : QueuedHotRestart}
    (sameVersion : kept.targetVersion = entry.targetVersion)
    (sameTime : kept.requestedAtMs = entry.requestedAtMs) : Forward (some entry) (some kept) := by
  intro other isOther
  obtain rfl : entry = other := by simpa using isOther
  have same : kept.version = entry.version := by
    rw [QueuedHotRestart.version, sameVersion, QueuedHotRestart.version]
  exact ⟨kept, rfl, same.ge, fun _ => sameTime⟩

theorem Host.forward_perform (intervalMs : Nat) (host : Host) (saved : Bool) (call : Call) :
    Forward host.file (host.perform intervalMs saved call).file := by
  rcases host.perform_cases intervalMs saved call with
    same | ⟨incoming, _, above, performed⟩ | ⟨request, outcome, isFile, performed⟩ |
      ⟨request, declaredBy, isFile, performed⟩
  · rw [same]
    exact Forward.refl _
  · rw [performed]
    intro entry wasFile
    have rises := above entry wasFile
    exact ⟨incoming, rfl, rises.le, fun same => absurd same rises.ne'⟩
  · rw [performed, isFile]
    exact Forward.of_kept rfl rfl
  · rw [performed, isFile]
    exact Forward.of_kept rfl rfl

/-- A version that cannot be read was there from the start. -/
def StoredReadable (start file : QueueFile) : Prop :=
  ∀ entry, file = some entry → entry.version = ⊥ →
    ∃ first, start = some first ∧ entry.targetVersion = first.targetVersion

theorem Host.storedReadable_perform (intervalMs : Nat) {start : QueueFile} {host : Host}
    (readable : StoredReadable start host.file) (saved : Bool) (call : Call) :
    StoredReadable start (host.perform intervalMs saved call).file := by
  rcases host.perform_cases intervalMs saved call with
    same | ⟨incoming, isRead, _, performed⟩ | ⟨request, outcome, isFile, performed⟩ |
      ⟨request, declaredBy, isFile, performed⟩
  · rwa [same]
  · rw [performed]
    intro stored isStored unread
    obtain rfl : incoming = stored := by simpa using isStored
    exact absurd unread isRead
  · rw [performed]
    intro stored isStored unread
    obtain rfl : request.withAttempt host.clock outcome = stored := by simpa using isStored
    exact readable request isFile unread
  · rw [performed]
    intro stored isStored unread
    obtain rfl : request.withBoundary host.clock declaredBy = stored := by simpa using isStored
    exact readable request isFile unread

/-! ### Boundaries -/

/-- What holds of the boundaries: the one in the file was declared in the past, and
one that has released an attempt is spent. -/
structure BoundariesCounted (host : Host) : Prop where
  held : ∀ index, host.boundary = some index → index < host.declared ∧
    ∃ request boundaryMs, host.file = some request ∧
      request.relayBoundaryAtMs = some boundaryMs ∧ boundaryMs ≤ host.clock ∧
        (index ∈ host.released → relayBoundaryIsUnspent request = false)
  counted : ∀ index ∈ host.released, index < host.declared
  once : host.released.Nodup

theorem relayBoundaryIsUnspent_withAttempt {request : QueuedHotRestart} {boundaryMs nowMs : Nat}
    (isBoundary : request.relayBoundaryAtMs = some boundaryMs) (past : boundaryMs ≤ nowMs)
    (outcome : String) : relayBoundaryIsUnspent (request.withAttempt nowMs outcome) = false := by
  simp only [relayBoundaryIsUnspent, QueuedHotRestart.withAttempt, isBoundary]
  exact decide_eq_false (Nat.not_lt.mpr past)

theorem Host.releasing_eq_some {host : Host} {intervalMs index : Nat}
    (releases : host.releasing intervalMs = some index) :
    host.boundary = some index ∧
      ∃ request, host.file = some request ∧ relayBoundaryIsUnspent request = true := by
  rw [releasing] at releases
  cases isFile : host.file with
  | none => simp [isFile] at releases
  | some request =>
      rw [isFile] at releases
      dsimp only at releases
      split at releases
      · next due => exact ⟨releases, request, rfl, due.2⟩
      · cases releases

theorem BoundariesCounted.tick {host : Host} (counted : BoundariesCounted host) (elapsedMs : Nat) :
    BoundariesCounted { host with clock := host.clock + elapsedMs } where
  held := by
    intro index isHeld
    obtain ⟨known, request, boundaryMs, isFile, isBoundary, past, spent⟩ :=
      counted.held index isHeld
    exact ⟨known, request, boundaryMs, isFile, isBoundary, past.trans (Nat.le_add_right _ _), spent⟩
  counted := counted.counted
  once := counted.once

theorem BoundariesCounted.recordAttempt {host : Host} (counted : BoundariesCounted host)
    (intervalMs : Nat) {request : QueuedHotRestart} (isFile : host.file = some request)
    (outcome : String) :
    BoundariesCounted
      { host with
        file := some (request.withAttempt host.clock outcome)
        released := host.released ++ (host.releasing intervalMs).toList } where
  held := by
    intro index isHeld
    obtain ⟨known, held, boundaryMs, isHeldFile, isBoundary, past, _⟩ := counted.held index isHeld
    obtain rfl : request = held := by simpa [isFile] using isHeldFile
    exact ⟨known, _, boundaryMs, rfl, isBoundary, past,
      fun _ => relayBoundaryIsUnspent_withAttempt isBoundary past outcome⟩
  counted := by
    intro index member
    rcases List.mem_append.mp member with earlier | isNew
    · exact counted.counted index earlier
    · have releases : host.releasing intervalMs = some index := by simpa using isNew
      exact (counted.held index (Host.releasing_eq_some releases).1).1
  once := by
    cases releases : host.releasing intervalMs with
    | none => simpa using counted.once
    | some index =>
        obtain ⟨isHeld, unspentRequest, isUnspentFile, unspent⟩ := Host.releasing_eq_some releases
        obtain ⟨_, held, _, isHeldFile, _, _, spent⟩ := counted.held index isHeld
        obtain rfl : unspentRequest = held := by simpa [isUnspentFile] using isHeldFile
        -- a boundary that released an attempt before would be spent by now
        have fresh : index ∉ host.released := fun before => by simp [spent before] at unspent
        simpa [List.nodup_append] using ⟨counted.once, fun other member same =>
          fresh (same ▸ member)⟩

theorem BoundariesCounted.declareRelayBoundary {host : Host} (counted : BoundariesCounted host)
    (request : QueuedHotRestart) (declaredBy : String) :
    BoundariesCounted
      { host with
        file := some (request.withBoundary host.clock declaredBy)
        declared := host.declared + 1
        boundary := some host.declared } where
  held := by
    intro index isHeld
    obtain rfl : host.declared = index := by simpa using isHeld
    refine ⟨Nat.lt_succ_self _, _, host.clock, rfl, rfl, le_refl _, ?_⟩
    intro before
    exact absurd (counted.counted _ before) (Nat.lt_irrefl _)
  counted := fun index member => Nat.lt_succ_of_lt (counted.counted index member)
  once := counted.once

theorem BoundariesCounted.step {host : Host} (counted : BoundariesCounted host)
    (intervalMs : Nat) (step : Step) : BoundariesCounted (host.step intervalMs step) := by
  have ticked := counted.tick step.elapsedMs
  rw [Host.step]
  rcases Host.perform_cases intervalMs { host with clock := host.clock + step.elapsedMs } step.saved
      step.call with
    same | ⟨incoming, _, _, performed⟩ | ⟨request, outcome, isFile, performed⟩ |
      ⟨request, declaredBy, isFile, performed⟩
  · rwa [same]
  · rw [performed]
    exact ⟨fun index isHeld => by simp at isHeld, ticked.counted, ticked.once⟩
  · rw [performed]
    exact ticked.recordAttempt intervalMs isFile outcome
  · rw [performed]
    exact ticked.declareRelayBoundary request declaredBy

/-! ### Whole runs -/

theorem forward_run (intervalMs : Nat) (host : Host) (steps : List Step) :
    Forward host.file (run (Host.step intervalMs) host steps).file := by
  have preserved : ∀ (later : Host) (step : Step), Forward host.file later.file →
      Forward host.file (later.step intervalMs step).file := by
    intro later step forward
    exact forward.trans (Host.forward_perform intervalMs
      { later with clock := later.clock + step.elapsedMs } step.saved step.call)
  exact run_invariant preserved (Forward.refl _) steps

theorem storedReadable_run (intervalMs : Nat) {start : QueueFile} {host : Host}
    (readable : StoredReadable start host.file) (steps : List Step) :
    StoredReadable start (run (Host.step intervalMs) host steps).file := by
  have preserved : ∀ (later : Host) (step : Step), StoredReadable start later.file →
      StoredReadable start (later.step intervalMs step).file := by
    intro later step stillReadable
    apply Host.storedReadable_perform
    exact stillReadable
  exact run_invariant preserved readable steps

/-- From any file and over any calls: between two moments of a run the version never
falls and the request keeps its time while the version stands; no version that cannot
be read is stored; and no boundary releases two recorded attempts. -/
theorem queue_moves_forward (intervalMs : Nat) (start : QueueFile) (clock : Nat)
    (earlier later : List Step) :
    let before := run (Host.step intervalMs) (Host.initial start clock) earlier
    let after := run (Host.step intervalMs) before later
    Forward before.file after.file ∧ StoredReadable start after.file ∧ after.released.Nodup := by
  have initially : BoundariesCounted (Host.initial start clock) :=
    ⟨fun index isHeld => by simp [Host.initial] at isHeld, by simp [Host.initial],
      List.nodup_nil⟩
  have startReadable : StoredReadable start start := fun entry isStart _ => ⟨entry, isStart, rfl⟩
  intro before after
  have counted : BoundariesCounted before :=
    run_invariant (fun _ step stillCounted => stillCounted.step intervalMs step) initially earlier
  have countedAfter : BoundariesCounted after :=
    run_invariant (fun _ step stillCounted => stillCounted.step intervalMs step) counted later
  refine ⟨forward_run intervalMs before later, ?_, countedAfter.once⟩
  exact storedReadable_run intervalMs (storedReadable_run intervalMs startReadable earlier) later

end Yggterm.HotRestart
