import Mathlib.Data.List.Basic
import Yggterm.Library.Lines

/-!
# The names the socket layer gives

`daemon.rs` and `pty_handoff.rs`: a server socket and a handoff socket carry a version,
and the socket that a retired or lingering daemon leaves carries its pid as well.
-/

namespace Yggterm.SocketSweep

open Text

abbrev Name := List Char

abbrev Version := Nat × Nat × Nat

/-- Three numbers between dashes. -/
def parseVersion (text : List Char) : Option Version :=
  match text.splitOn '-' with
  | [major, minor, patch] => do
      some (← parseUnsigned 64 major, ← parseUnsigned 64 minor, ← parseUnsigned 64 patch)
  | _ => none

/-- `server-X-Y-Z.sock`. -/
def parseVersionedServerSocketName (name : Name) : Option Version := do
  let rest ← name.dropPrefix? "server-".toList
  parseVersion (← rest.dropSuffix? ".sock".toList)

/-- `server-X-Y-Z.sock.retired-<pid>`, or the same of the lock. -/
def parseRetiredServerSocketArtifact (name : Name) : Option (Version × Nat) := do
  let (stem, pidText) ← findLast ".retired-".toList name
  let pid ← parseUnsigned 32 pidText
  if pid = 0 then none
  else
    let stem := (stem.dropSuffix? ".lock".toList).getD stem
    some (← parseVersionedServerSocketName stem, pid)

/-- `server-X-Y-Z-linger-<pid>.sock`. -/
def parseLingeringServerSocketName (name : Name) : Option (Version × Nat) := do
  let rest ← name.dropSuffix? ".sock".toList
  let (stem, pidText) ← findLast "-linger-".toList rest
  let pid ← parseUnsigned 32 pidText
  if pid = 0 then none
  else some (← parseVersionedServerSocketName (stem ++ ".sock".toList), pid)

/-- `server-X-Y-Z.sock.lock`. -/
def parseLockName (name : Name) : Option Version := do
  parseVersionedServerSocketName (← name.dropSuffix? ".lock".toList)

/-- `pty-handoff-X-Y-Z.sock`. -/
def parseHandoffSocketName (name : Name) : Option Version := do
  let rest ← name.dropPrefix? "pty-handoff-".toList
  parseVersion (← rest.dropSuffix? ".sock".toList)

/-- The pid in a name that has one. -/
def pidWitness (name : Name) : Option Nat :=
  match parseRetiredServerSocketArtifact name with
  | some (_, pid) => some pid
  | none => (parseLingeringServerSocketName name).map (·.2)

/-! ## What such a name is made of -/

/-- Neither a tab nor a newline: such a name is one field of one line. -/
def OneField (text : List Char) : Prop := '\t' ∉ text ∧ '\n' ∉ text

instance (text : List Char) : Decidable (OneField text) := inferInstanceAs (Decidable (_ ∧ _))

theorem OneField.append {first second : List Char} (left : OneField first)
    (right : OneField second) : OneField (first ++ second) := by
  simp only [OneField, List.mem_append, not_or]
  exact ⟨⟨left.1, right.1⟩, left.2, right.2⟩

theorem OneField.of_append {first second : List Char} (whole : OneField (first ++ second)) :
    OneField first := by
  simp only [OneField, List.mem_append, not_or] at whole
  exact ⟨whole.1.1, whole.2.1⟩

theorem oneField_of_parseUnsigned {bits value : Nat} {text : List Char}
    (parsed : parseUnsigned bits text = some value) : OneField text := by
  constructor <;> intro member <;>
    exact absurd (isDigit_of_mem_parseUnsigned parsed member) (by decide)

theorem oneField_of_parseVersion {text : List Char} {version : Version}
    (parsed : parseVersion text = some version) : OneField text := by
  unfold parseVersion at parsed
  split at parsed
  · next major minor patch isSplit =>
      simp only [Option.bind_eq_bind, Option.bind_eq_some_iff] at parsed
      obtain ⟨_, isMajor, _, isMinor, _, isPatch, _⟩ := parsed
      have joined : ['-'].intercalate (text.splitOn '-') = text := List.intercalate_splitOn '-'
      have isText : text = major ++ (['-'] ++ (minor ++ (['-'] ++ patch))) := by
        rw [← joined, isSplit]
        simp [List.intercalate]
      have dash : OneField ['-'] := by decide
      rw [isText]
      exact (oneField_of_parseUnsigned isMajor).append (dash.append
        ((oneField_of_parseUnsigned isMinor).append
          (dash.append (oneField_of_parseUnsigned isPatch))))
  · cases parsed

theorem dropPrefix_eq {text front rest : List Char} (dropped : text.dropPrefix? front = some rest) :
    text = front ++ rest := by
  obtain ⟨same, isText, isFront⟩ := List.dropPrefix?_eq_some_iff.mp dropped
  rw [isText, eq_of_beq isFront]

theorem dropSuffix_eq {text ending rest : List Char}
    (dropped : text.dropSuffix? ending = some rest) : text = rest ++ ending := by
  obtain ⟨same, isText, isEnding⟩ := List.dropSuffix?_eq_some_iff.mp dropped
  rw [isText, eq_of_beq isEnding]

theorem oneField_of_parseVersioned {name : Name} {version : Version}
    (parsed : parseVersionedServerSocketName name = some version) : OneField name := by
  simp only [parseVersionedServerSocketName, Option.bind_eq_bind, Option.bind_eq_some_iff] at parsed
  obtain ⟨rest, isRest, middle, isMiddle, isVersion⟩ := parsed
  rw [dropPrefix_eq isRest, dropSuffix_eq isMiddle]
  exact OneField.append (by decide) ((oneField_of_parseVersion isVersion).append (by decide))

theorem oneField_of_parseHandoff {name : Name} {version : Version}
    (parsed : parseHandoffSocketName name = some version) : OneField name := by
  simp only [parseHandoffSocketName, Option.bind_eq_bind, Option.bind_eq_some_iff] at parsed
  obtain ⟨rest, isRest, middle, isMiddle, isVersion⟩ := parsed
  rw [dropPrefix_eq isRest, dropSuffix_eq isMiddle]
  exact OneField.append (by decide) ((oneField_of_parseVersion isVersion).append (by decide))

theorem oneField_of_parseLock {name : Name} {version : Version}
    (parsed : parseLockName name = some version) : OneField name := by
  simp only [parseLockName, Option.bind_eq_bind, Option.bind_eq_some_iff] at parsed
  obtain ⟨stem, isStem, isVersion⟩ := parsed
  rw [dropSuffix_eq isStem]
  exact (oneField_of_parseVersioned isVersion).append (by decide)

theorem oneField_of_parseRetired {name : Name} {found : Version × Nat}
    (parsed : parseRetiredServerSocketArtifact name = some found) : OneField name := by
  simp only [parseRetiredServerSocketArtifact, Option.bind_eq_bind, Option.bind_eq_some_iff]
    at parsed
  obtain ⟨⟨stem, pidText⟩, isName, pid, isPid, rest⟩ := parsed
  by_cases zero : pid = 0
  · simp [zero] at rest
  · rw [if_neg zero, Option.bind_eq_some_iff] at rest
    obtain ⟨version, isVersion, _⟩ := rest
    have stemField : OneField stem := by
      cases dropped : stem.dropSuffix? ".lock".toList with
      | none =>
          rw [dropped, Option.getD_none] at isVersion
          exact oneField_of_parseVersioned isVersion
      | some short =>
          rw [dropped, Option.getD_some] at isVersion
          rw [dropSuffix_eq dropped]
          exact (oneField_of_parseVersioned isVersion).append (by decide)
    rw [findLast_eq isName]
    exact stemField.append (OneField.append (by decide) (oneField_of_parseUnsigned isPid))

theorem oneField_of_parseLingering {name : Name} {found : Version × Nat}
    (parsed : parseLingeringServerSocketName name = some found) : OneField name := by
  simp only [parseLingeringServerSocketName, Option.bind_eq_bind, Option.bind_eq_some_iff]
    at parsed
  obtain ⟨rest, isRest, ⟨stem, pidText⟩, isStem, pid, isPid, last⟩ := parsed
  by_cases zero : pid = 0
  · simp [zero] at last
  · rw [if_neg zero, Option.bind_eq_some_iff] at last
    obtain ⟨version, isVersion, _⟩ := last
    have stemField : OneField stem := (oneField_of_parseVersioned isVersion).of_append
    rw [dropSuffix_eq isRest, findLast_eq isStem]
    exact (stemField.append (OneField.append (by decide) (oneField_of_parseUnsigned isPid))).append
      (by decide)

theorem oneField_of_pidWitness {name : Name} {pid : Nat} (witness : pidWitness name = some pid) :
    OneField name := by
  unfold pidWitness at witness
  split at witness
  · next retired => exact oneField_of_parseRetired retired
  · obtain ⟨found, lingering, _⟩ := Option.map_eq_some_iff.mp witness
    exact oneField_of_parseLingering lingering

/-! ## The verdict on one entry

`classify_socket_entry` of `socket_sweep.rs`, with what it reads of the file system and of
the process table as arguments. -/

/-- A file by its directory and its name. -/
structure SocketPath where
  parent : List Char
  name : Name
  deriving DecidableEq

inductive KeepReason where
  | censusIncomplete
  | ownSocket
  | listening
  | liveDaemonVersion
  | unreadable
  | retiredOwnerAlive
  | rollbackSetUnknown
  deriving DecidableEq

inductive SocketVerdict where
  | notOurs
  | keep (reason : KeepReason)
  | confirmLater
  | remove
  deriving DecidableEq

/-- What the kernel's socket table and the installed versions say. -/
structure LiveDaemonCensus where
  listening : List SocketPath
  complete : Bool
  rollbackVersions : List Version
  rollbackKnown : Bool

/-- The versions of the daemons that listen. -/
def LiveDaemonCensus.liveVersions (census : LiveDaemonCensus) : List Version :=
  census.listening.filterMap (fun path => parseVersionedServerSocketName path.name)

/-- `SOCKET_DEAD_CONFIRM_MS`. -/
def socketDeadConfirmMs : Nat := 24 * 60 * 60 * 1000

/-- A dead entry goes once its first sighting is old enough. -/
def confirm (firstSeenDeadMs : Option Nat) (nowMs : Nat) : SocketVerdict :=
  match firstSeenDeadMs with
  | some first => if nowMs - first ≥ socketDeadConfirmMs then .remove else .confirmLater
  | none => .confirmLater

theorem exists_of_confirm_eq_remove {firstSeenDeadMs : Option Nat} {nowMs : Nat}
    (removes : confirm firstSeenDeadMs nowMs = .remove) :
    ∃ first, firstSeenDeadMs = some first ∧ first + socketDeadConfirmMs ≤ nowMs := by
  cases firstSeenDeadMs with
  | none => cases removes
  | some first =>
      refine ⟨first, rfl, ?_⟩
      by_cases due : nowMs - first ≥ socketDeadConfirmMs
      · rw [socketDeadConfirmMs] at due ⊢
        omega
      · simp [confirm, due] at removes

/-- An entry whose name carries a pid. -/
def classifyByPid (alive : Option Bool) (firstSeenDeadMs : Option Nat) (nowMs : Nat) :
    SocketVerdict :=
  match alive with
  | some true => .keep .retiredOwnerAlive
  | some false => confirm firstSeenDeadMs nowMs
  | none => .keep .unreadable

/-- The name that the socket of a version has. -/
def serverSocketName (version : Version) : Name :=
  "server-".toList ++ Nat.toDigits 10 version.1 ++ "-".toList ++ Nat.toDigits 10 version.2.1 ++
    "-".toList ++ Nat.toDigits 10 version.2.2 ++ ".sock".toList

def classifyLock (path : SocketPath) (version : Version) (census : LiveDaemonCensus)
    (firstSeenDeadMs : Option Nat) (nowMs : Nat) : SocketVerdict :=
  if { path with name := serverSocketName version } ∈ census.listening ∨
      version ∈ census.liveVersions ∨
      (census.rollbackKnown = true ∧ version ∈ census.rollbackVersions) then
    .keep .liveDaemonVersion
  else if census.rollbackKnown = false then .keep .rollbackSetUnknown
  else confirm firstSeenDeadMs nowMs

def classifyHandoff (path : SocketPath) (version : Version) (census : LiveDaemonCensus)
    (firstSeenDeadMs : Option Nat) (nowMs : Nat) : SocketVerdict :=
  if census.complete = false then .keep .censusIncomplete
  else if path ∈ census.listening then .keep .listening
  else if version ∈ census.liveVersions then .keep .liveDaemonVersion
  else confirm firstSeenDeadMs nowMs

/-- The entry resolves to a socket that is listened on. -/
def IsAlias (canonical : Option SocketPath) (census : LiveDaemonCensus) : Prop :=
  ∃ target, canonical = some target ∧ target ∈ census.listening

instance (canonical : Option SocketPath) (census : LiveDaemonCensus) :
    Decidable (IsAlias canonical census) :=
  match canonical with
  | none => isFalse (by rintro ⟨_, isTarget, _⟩; cases isTarget)
  | some target =>
      decidable_of_iff (target ∈ census.listening)
        ⟨fun member => ⟨target, rfl, member⟩, by rintro ⟨_, ⟨⟩, member⟩; exact member⟩

def classifyVersioned (path : SocketPath) (version : Version) (canonical : Option SocketPath)
    (readable : Bool) (census : LiveDaemonCensus) (ownIdentity : Option SocketPath)
    (firstSeenDeadMs : Option Nat) (nowMs : Nat) : SocketVerdict :=
  if census.complete = false then .keep .censusIncomplete
  else if ownIdentity.isSome ∧ (some path = ownIdentity ∨ canonical = ownIdentity) then
    .keep .ownSocket
  else if path ∈ census.listening then .keep .listening
  else if IsAlias canonical census then
    if version ∈ census.rollbackVersions then .keep .listening
    else if census.rollbackKnown = false then .keep .rollbackSetUnknown
    else confirm firstSeenDeadMs nowMs
  else if version ∈ census.liveVersions then .keep .liveDaemonVersion
  else if readable = false then .keep .unreadable
  else confirm firstSeenDeadMs nowMs

/-- The whole decision for one directory entry. -/
def classifySocketEntry (procPidAlive : Nat → Option Bool) (path : SocketPath)
    (canonical : Option SocketPath) (readable : Bool) (census : LiveDaemonCensus)
    (ownIdentity : Option SocketPath) (firstSeenDeadMs : Option Nat) (nowMs : Nat) :
    SocketVerdict :=
  match parseVersionedServerSocketName path.name with
  | some version =>
      classifyVersioned path version canonical readable census ownIdentity firstSeenDeadMs nowMs
  | none =>
      match parseRetiredServerSocketArtifact path.name with
      | some (_, pid) => classifyByPid (procPidAlive pid) firstSeenDeadMs nowMs
      | none =>
          match parseLingeringServerSocketName path.name with
          | some (_, pid) => classifyByPid (procPidAlive pid) firstSeenDeadMs nowMs
          | none =>
              if census.complete = false then .keep .censusIncomplete
              else
                match parseLockName path.name with
                | some version => classifyLock path version census firstSeenDeadMs nowMs
                | none =>
                    match parseHandoffSocketName path.name with
                    | some version => classifyHandoff path version census firstSeenDeadMs nowMs
                    | none => .notOurs

/-! ### Why an entry is taken for dead -/

/-- The grounds of the four kinds of names on which an entry is dead. -/
inductive ProvedDead (procPidAlive : Nat → Option Bool) (path : SocketPath)
    (canonical : Option SocketPath) (census : LiveDaemonCensus)
    (ownIdentity : Option SocketPath) : Prop where
  | versioned {version : Version}
      (named : parseVersionedServerSocketName path.name = some version)
      (complete : census.complete = true)
      (foreign : ∀ own, ownIdentity = some own → path ≠ own ∧ canonical ≠ some own)
      (unheard : path ∉ census.listening)
      (stale : IsAlias canonical census ∨ version ∉ census.liveVersions)
  | owner {pid : Nat} (unversioned : parseVersionedServerSocketName path.name = none)
      (named : pidWitness path.name = some pid) (gone : procPidAlive pid = some false)
  | lock {version : Version} (unversioned : parseVersionedServerSocketName path.name = none)
      (unwitnessed : pidWitness path.name = none) (named : parseLockName path.name = some version)
      (complete : census.complete = true) (stale : version ∉ census.liveVersions)
  | handoff {version : Version} (unversioned : parseVersionedServerSocketName path.name = none)
      (unwitnessed : pidWitness path.name = none) (unlocked : parseLockName path.name = none)
      (named : parseHandoffSocketName path.name = some version)
      (complete : census.complete = true) (unheard : path ∉ census.listening)
      (stale : version ∉ census.liveVersions)

/-- A verdict that leaves the file and its sightings alone. -/
def SocketVerdict.Spares (verdict : SocketVerdict) : Prop :=
  verdict ≠ .confirmLater ∧ verdict ≠ .remove

theorem spares_keep (reason : KeepReason) : (SocketVerdict.keep reason).Spares :=
  ⟨SocketVerdict.noConfusion, SocketVerdict.noConfusion⟩

section Verdicts

variable {procPidAlive : Nat → Option Bool} {path : SocketPath} {canonical : Option SocketPath}
variable {census : LiveDaemonCensus} {ownIdentity : Option SocketPath}

theorem classifyVersioned_cases {version : Version}
    (named : parseVersionedServerSocketName path.name = some version) (readable : Bool)
    (nowMs : Nat) :
    (ProvedDead procPidAlive path canonical census ownIdentity ∧ ∀ firstSeen,
      classifyVersioned path version canonical readable census ownIdentity firstSeen nowMs =
        confirm firstSeen nowMs) ∨
    ∃ verdict : SocketVerdict, verdict.Spares ∧ ∀ firstSeen,
      classifyVersioned path version canonical readable census ownIdentity firstSeen nowMs =
        verdict := by
  simp only [classifyVersioned]
  by_cases incomplete : census.complete = false
  · simp only [if_pos incomplete]
    exact .inr ⟨_, spares_keep _, fun _ => rfl⟩
  · by_cases own : ownIdentity.isSome ∧ (some path = ownIdentity ∨ canonical = ownIdentity)
    · simp only [if_neg incomplete, if_pos own]
      exact .inr ⟨_, spares_keep _, fun _ => rfl⟩
    · have foreign : ∀ own, ownIdentity = some own → path ≠ own ∧ canonical ≠ some own := by
        rintro identity rfl
        simpa using own
      by_cases heard : path ∈ census.listening
      · simp only [if_neg incomplete, if_neg own, if_pos heard]
        exact .inr ⟨_, spares_keep _, fun _ => rfl⟩
      · by_cases isAlias : IsAlias canonical census
        · by_cases installed : version ∈ census.rollbackVersions
          · simp only [if_neg incomplete, if_neg own, if_neg heard, if_pos isAlias,
              if_pos installed]
            exact .inr ⟨_, spares_keep _, fun _ => rfl⟩
          · by_cases unknown : census.rollbackKnown = false
            · simp only [if_neg incomplete, if_neg own, if_neg heard, if_pos isAlias,
                if_neg installed, if_pos unknown]
              exact .inr ⟨_, spares_keep _, fun _ => rfl⟩
            · simp only [if_neg incomplete, if_neg own, if_neg heard, if_pos isAlias,
                if_neg installed, if_neg unknown]
              exact .inl ⟨.versioned named (by simpa using incomplete) foreign heard
                (.inl isAlias), fun _ => trivial⟩
        · by_cases live : version ∈ census.liveVersions
          · simp only [if_neg incomplete, if_neg own, if_neg heard, if_neg isAlias, if_pos live]
            exact .inr ⟨_, spares_keep _, fun _ => rfl⟩
          · by_cases unreadable : readable = false
            · simp only [if_neg incomplete, if_neg own, if_neg heard, if_neg isAlias, if_neg live,
                if_pos unreadable]
              exact .inr ⟨_, spares_keep _, fun _ => rfl⟩
            · simp only [if_neg incomplete, if_neg own, if_neg heard, if_neg isAlias, if_neg live,
                if_neg unreadable]
              exact .inl ⟨.versioned named (by simpa using incomplete) foreign heard
                (.inr live), fun _ => trivial⟩

theorem classifyByPid_cases (alive : Option Bool) (nowMs : Nat) :
    (alive = some false ∧ ∀ firstSeen, classifyByPid alive firstSeen nowMs =
      confirm firstSeen nowMs) ∨
    ∃ verdict : SocketVerdict, verdict.Spares ∧ ∀ firstSeen,
      classifyByPid alive firstSeen nowMs = verdict := by
  rcases alive with _ | _ | _
  · exact .inr ⟨_, spares_keep _, fun _ => rfl⟩
  · exact .inl ⟨rfl, fun _ => rfl⟩
  · exact .inr ⟨_, spares_keep _, fun _ => rfl⟩

theorem classifyLock_cases (version : Version) (nowMs : Nat) :
    (version ∉ census.liveVersions ∧ ∀ firstSeen, classifyLock path version census firstSeen nowMs =
      confirm firstSeen nowMs) ∨
    ∃ verdict : SocketVerdict, verdict.Spares ∧ ∀ firstSeen,
      classifyLock path version census firstSeen nowMs = verdict := by
  simp only [classifyLock]
  by_cases live : { path with name := serverSocketName version } ∈ census.listening ∨
      version ∈ census.liveVersions ∨
      (census.rollbackKnown = true ∧ version ∈ census.rollbackVersions)
  · simp only [if_pos live]
    exact .inr ⟨_, spares_keep _, fun _ => rfl⟩
  · by_cases unknown : census.rollbackKnown = false
    · simp only [if_neg live, if_pos unknown]
      exact .inr ⟨_, spares_keep _, fun _ => rfl⟩
    · simp only [if_neg live, if_neg unknown]
      exact .inl ⟨fun isLive => live (.inr (.inl isLive)), fun _ => trivial⟩

theorem classifyHandoff_cases (version : Version) (nowMs : Nat) :
    (path ∉ census.listening ∧ version ∉ census.liveVersions ∧ ∀ firstSeen,
      classifyHandoff path version census firstSeen nowMs = confirm firstSeen nowMs) ∨
    ∃ verdict : SocketVerdict, verdict.Spares ∧ ∀ firstSeen,
      classifyHandoff path version census firstSeen nowMs = verdict := by
  simp only [classifyHandoff]
  by_cases incomplete : census.complete = false
  · simp only [if_pos incomplete]
    exact .inr ⟨_, spares_keep _, fun _ => rfl⟩
  · by_cases heard : path ∈ census.listening
    · simp only [if_neg incomplete, if_pos heard]
      exact .inr ⟨_, spares_keep _, fun _ => rfl⟩
    · by_cases live : version ∈ census.liveVersions
      · simp only [if_neg incomplete, if_neg heard, if_pos live]
        exact .inr ⟨_, spares_keep _, fun _ => rfl⟩
      · simp only [if_neg incomplete, if_neg heard, if_neg live]
        exact .inl ⟨heard, live, fun _ => trivial⟩

/-- Whether an entry is dead does not depend on the sightings before; if it is, there are
grounds for it, and its name is one the ledger can hold. -/
theorem classifySocketEntry_cases (procPidAlive : Nat → Option Bool) (path : SocketPath)
    (canonical : Option SocketPath) (readable : Bool) (census : LiveDaemonCensus)
    (ownIdentity : Option SocketPath) (nowMs : Nat) :
    (ProvedDead procPidAlive path canonical census ownIdentity ∧ ∀ firstSeen,
      classifySocketEntry procPidAlive path canonical readable census ownIdentity firstSeen nowMs =
        confirm firstSeen nowMs) ∨
    ∃ verdict : SocketVerdict, verdict.Spares ∧ ∀ firstSeen,
      classifySocketEntry procPidAlive path canonical readable census ownIdentity firstSeen nowMs =
        verdict := by
  simp only [classifySocketEntry]
  cases versioned : parseVersionedServerSocketName path.name with
  | some version => exact classifyVersioned_cases versioned readable nowMs
  | none =>
      cases retired : parseRetiredServerSocketArtifact path.name with
      | some found =>
          obtain ⟨_, pid⟩ := found
          have witness : pidWitness path.name = some pid := by simp [pidWitness, retired]
          rcases classifyByPid_cases (procPidAlive pid) nowMs with ⟨gone, confirms⟩ | spared
          · exact .inl ⟨.owner versioned witness gone, confirms⟩
          · exact .inr spared
      | none =>
          cases lingering : parseLingeringServerSocketName path.name with
          | some found =>
              obtain ⟨_, pid⟩ := found
              have witness : pidWitness path.name = some pid := by
                simp [pidWitness, retired, lingering]
              rcases classifyByPid_cases (procPidAlive pid) nowMs with ⟨gone, confirms⟩ | spared
              · exact .inl ⟨.owner versioned witness gone, confirms⟩
              · exact .inr spared
          | none =>
              have unwitnessed : pidWitness path.name = none := by
                simp [pidWitness, retired, lingering]
              by_cases incomplete : census.complete = false
              · simp only [if_pos incomplete]
                exact .inr ⟨_, spares_keep _, fun _ => rfl⟩
              · have complete : census.complete = true := by simpa using incomplete
                simp only [if_neg incomplete]
                cases locked : parseLockName path.name with
                | some version =>
                    rcases classifyLock_cases version nowMs with ⟨stale, confirms⟩ | spared
                    · exact .inl ⟨.lock versioned unwitnessed locked complete stale, confirms⟩
                    · exact .inr spared
                | none =>
                    cases handoff : parseHandoffSocketName path.name with
                    | some version =>
                        rcases classifyHandoff_cases version nowMs with
                          ⟨unheard, stale, confirms⟩ | spared
                        · exact .inl ⟨.handoff versioned unwitnessed locked handoff complete unheard
                            stale, confirms⟩
                        · exact .inr spared
                    | none =>
                        exact .inr ⟨.notOurs,
                          ⟨SocketVerdict.noConfusion, SocketVerdict.noConfusion⟩,
                          fun _ => rfl⟩

theorem ProvedDead.oneField (dead : ProvedDead procPidAlive path canonical census ownIdentity) :
    OneField path.name := by
  cases dead with
  | versioned named => exact oneField_of_parseVersioned named
  | owner unversioned named gone => exact oneField_of_pidWitness named
  | lock unversioned unwitnessed named => exact oneField_of_parseLock named
  | handoff unversioned unwitnessed unlocked named => exact oneField_of_parseHandoff named

/-- An entry is dead by the pid of its name, or by a complete census. -/
theorem ProvedDead.complete_of_unwitnessed
    (dead : ProvedDead procPidAlive path canonical census ownIdentity)
    (unwitnessed : pidWitness path.name = none) : census.complete = true := by
  cases dead with
  | versioned named complete => exact complete
  | owner unversioned named gone =>
      rw [unwitnessed] at named
      cases named
  | lock unversioned unwitnessed named complete => exact complete
  | handoff unversioned unwitnessed unlocked named complete => exact complete

/-- No dead entry but a lock is listened on, unless its own pid says otherwise. -/
theorem ProvedDead.unheard (dead : ProvedDead procPidAlive path canonical census ownIdentity)
    (unwitnessed : pidWitness path.name = none) (unlocked : parseLockName path.name = none) :
    path ∉ census.listening := by
  cases dead with
  | versioned named complete foreign unheard => exact unheard
  | owner unversioned named gone =>
      rw [unwitnessed] at named
      cases named
  | lock unversioned unwitnessed named =>
      rw [unlocked] at named
      cases named
  | handoff unversioned unwitnessed unlocked named complete unheard => exact unheard

/-- The version that a name carries. -/
def versionOf (name : Name) : Option Version :=
  (parseVersionedServerSocketName name).or
    ((parseLockName name).or (parseHandoffSocketName name))

/-- A dead entry of a live version has its pid in the name, or is a server socket's alias. -/
theorem ProvedDead.alias_of_live
    (dead : ProvedDead procPidAlive path canonical census ownIdentity)
    (unwitnessed : pidWitness path.name = none) {version : Version}
    (isVersion : versionOf path.name = some version) (live : version ∈ census.liveVersions) :
    (parseVersionedServerSocketName path.name).isSome ∧ IsAlias canonical census := by
  cases dead with
  | versioned named complete foreign unheard stale =>
      simp only [versionOf, named, Option.some_or, Option.some.injEq] at isVersion
      subst isVersion
      exact ⟨by simp [named], stale.resolve_right fun notLive => notLive live⟩
  | owner unversioned named gone =>
      rw [unwitnessed] at named
      cases named
  | lock unversioned unwitnessed named complete stale =>
      simp only [versionOf, unversioned, named, Option.none_or, Option.some_or,
        Option.some.injEq] at isVersion
      subst isVersion
      exact absurd live stale
  | handoff unversioned unwitnessed unlocked named complete unheard stale =>
      simp only [versionOf, unversioned, unlocked, named, Option.none_or, Option.some.injEq]
        at isVersion
      subst isVersion
      exact absurd live stale

end Verdicts

end Yggterm.SocketSweep
