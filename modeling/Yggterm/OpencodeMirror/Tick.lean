import Mathlib.Data.Char
import Mathlib.Data.List.Lex
import Std.Data.TreeMap
import Yggterm.Library.Slots
import Yggterm.Library.Text

/-!
# The mirror of the OpenCode sessions: what it reads and plans

The OpenCode service lists its sessions, and the mirror keeps one row for each
(`yggterm-server/src/opencode_mirror.rs`).  It keeps no book of its own: which rows are its
projections is read back out of the rows, from their key, their metadata and their id.

What a tick does with titles, seats, launch commands and the viewport is left out: no row is
kept or removed for it.
-/

namespace Yggterm.OpencodeMirror

open Text HashMaps

inductive SessionKind where
  | codex | codexLiteLlm | claudeCode | pi | openCode | qwenCode | kimi | muse | antigravity
  | grokBuild | zcodeTui | devin | mimoCode | shell | sshShell | document
  deriving DecidableEq

inductive SessionSource where
  | stored | liveLocal | liveSsh
  deriving DecidableEq

inductive TerminalLaunchPhase where
  | queued | bridgePending | remoteBootstrap | running | failed
  deriving DecidableEq

/-- A session as the service lists it. -/
structure OpencodeServiceSession where
  id : List Char
  title : Option (List Char)
  directory : Option (List Char)
  viewedEpochMs : Nat
  deriving DecidableEq

/-- A row (`ManagedSessionView`). -/
structure Row where
  id : List Char
  sessionPath : List Char
  kind : SessionKind
  source : SessionSource
  launchPhase : TerminalLaunchPhase
  metadata : List (List Char × List Char)
  terminalProcessId : Option Nat
  deriving DecidableEq

/-- The rows by their keys. -/
abbrev Plane := Std.TreeMap (List Char) Row

def runtimeScheme : List Char := "opencode-runtime://".toList

/-- Where the row of a session is put. -/
def spawnKey (sessionId : List Char) : List Char := runtimeScheme ++ sessionId

def sourceLabel : List Char := "Source".toList
def tabSourceMetadata : List Char := "opencode-tab-mirror".toList
def tabSessionIdMetadata : List Char := "Tab Session Id".toList
def viewingSessionMetadata : List Char := "Viewing Tab Session Id".toList
def viewedMetadata : List Char := "Tab Viewed Ms".toList

namespace Row

/-- `session_metadata_value`. -/
def metadataValue (label : List Char) (row : Row) : Option (List Char) :=
  (row.metadata.find? fun entry => entry.1 = label).map Prod.snd

end Row

def upsertEntry (label value : List Char) :
    List (List Char × List Char) → List (List Char × List Char)
  | [] => [(label, value)]
  | entry :: rest =>
      if entry.1 = label then (label, value) :: rest else entry :: upsertEntry label value rest

/-- `upsert_session_metadata`. -/
def upsertSessionMetadata (label value : List Char) (row : Row) : Row :=
  { row with metadata := upsertEntry label value row.metadata }

/-- The session a row stands for: its stamp, or its key, or its id. -/
def mirrorTabSessionId (kind : SessionKind) (key : List Char) (stamped : Option (List Char))
    (id : List Char) : Option (List Char) :=
  if kind ≠ .openCode then none
  else match (stamped.map trim).filter (· ≠ []) with
    | some ses => some ses
    | none =>
        if spawnKey "ses_".toList <+: key then some (key.drop runtimeScheme.length)
        else if "ses_".toList <+: trim id then some (trim id) else none

def tabSession (key : List Char) (row : Row) : Option (List Char) :=
  mirrorTabSessionId row.kind key (row.metadataValue tabSessionIdMetadata) row.id

def rowIsEngaged (row : Row) : Bool :=
  row.terminalProcessId.isSome || row.launchPhase = .running ||
    row.launchPhase = .remoteBootstrap || row.launchPhase = .bridgePending

/-- The row carries the stamp of the mirror. -/
def mirrorProjectionRow (row : Row) : Bool :=
  row.metadata.any fun entry => entry.1 = sourceLabel && entry.2 = tabSourceMetadata

structure OwnedTab where
  key : List Char
  viewedEpochMs : Nat
  engaged : Bool
  mirrorOwned : Bool
  deriving DecidableEq

/-- What the mirror takes for its own. -/
def isMirrorOwned (key : List Char) (row : Row) : Bool :=
  runtimeScheme.isPrefixOf key || mirrorProjectionRow row

def ownedTab (key : List Char) (row : Row) : OwnedTab where
  key
  viewedEpochMs := ((row.metadataValue viewedMetadata).bind (parseUnsigned 128)).getD 0
  engaged := rowIsEngaged row
  mirrorOwned := isMirrorOwned key row

/-- The rows that stand for a session, in the order of their keys. -/
def tabClaims (plane : Plane) : List (List Char × OwnedTab) :=
  plane.toList.filterMap fun entry =>
    (tabSession entry.1 entry.2).map fun ses => (ses, ownedTab entry.1 entry.2)

/-- The first row that stands for a session owns it, unless one that is not the mirror's does. -/
def ownedTabsFrom (plane : Plane) : Finmap fun _ : List Char => OwnedTab :=
  Slots.claimAll (fun tab => !tab.mirrorOwned) (tabClaims plane)

def pinnedStableFrom (owned : Finmap fun _ : List Char => OwnedTab)
    (anchorKey : Option (List Char)) : Finset (List Char) :=
  owned.keys.filter fun ses => ∃ tab ∈ owned.lookup ses,
    tab.mirrorOwned = false ∧ tab.engaged = true ∧ anchorKey ≠ some tab.key

structure TabSyncPlan where
  spawn : List OpencodeServiceSession
  retire : List (List Char)
  retract : List (List Char)
  focus : Option (List Char)

/-- The last of the sessions that were viewed latest. -/
def newestViewed (sessions : List OpencodeServiceSession) : Option OpencodeServiceSession :=
  (sessions.filter fun ses => 0 < ses.viewedEpochMs).foldl
    (fun newest ses =>
      if newest.all fun other => other.viewedEpochMs ≤ ses.viewedEpochMs then some ses else newest)
    none

def isListed (sessions : List OpencodeServiceSession) (ses : List Char) : Bool :=
  sessions.any fun session => session.id = ses

/-- The hash tables yield their keys in some order. -/
def planTabSync (order : IterationOrder (List Char)) (sessions : List OpencodeServiceSession)
    (owned : Finmap fun _ : List Char => OwnedTab) (pinnedStable : Finset (List Char))
    (rows : Plane) : TabSyncPlan where
  spawn := sessions.filter fun ses => ses.id ∉ owned
  retire := (order.keys owned.keys).filter fun ses =>
    (owned.lookup ses).any fun tab => tab.mirrorOwned && !isListed sessions ses && !tab.engaged
  retract := ((order.keys pinnedStable).filter fun ses =>
    (rows[spawnKey ses]?).any fun twin =>
      mirrorProjectionRow twin && !rowIsEngaged twin).mergeSort (· ≤ ·)
  focus := (newestViewed sessions).bind fun newest =>
    (owned.lookup newest.id).bind fun tab =>
      if tab.mirrorOwned ∧ tab.viewedEpochMs < newest.viewedEpochMs then some newest.id else none

@[simp]
theorem metadata_upsertSessionMetadata (label value : List Char) (row : Row) :
    (upsertSessionMetadata label value row).metadata = upsertEntry label value row.metadata :=
  rfl

theorem find?_upsertEntry (label value other : List Char) (entries : List (List Char × List Char)) :
    ((upsertEntry label value entries).find? fun entry => entry.1 = other).map Prod.snd =
      if label = other then some value
      else (entries.find? fun entry => entry.1 = other).map Prod.snd := by
  induction entries with
  | nil => by_cases same : label = other <;> simp [upsertEntry, same]
  | cons entry rest inductionHypothesis =>
      by_cases isLabel : entry.1 = label
      · by_cases same : label = other <;> simp [upsertEntry, isLabel, same]
      · rw [upsertEntry, if_neg isLabel]
        by_cases isOther : entry.1 = other
        · have different : label ≠ other := fun equality => isLabel (isOther.trans equality.symm)
          simp [isOther, different]
        · simpa [isOther] using inductionHypothesis

@[simp]
theorem metadataValue_upsertSessionMetadata (label value other : List Char) (row : Row) :
    (upsertSessionMetadata label value row).metadataValue other =
      if label = other then some value else row.metadataValue other :=
  find?_upsertEntry label value other row.metadata

/-! ## A tick of the mirror

`apply_opencode_tab_mirror`: rows are born or adopted for the sessions that have none, rows of
sessions that are gone are retired, twins of rows that the user runs are retracted, and the
row of the running TUI is bound to the session it shows. -/

def spawnBudgetPerTick : Nat := 1

/-- What a tick is told.  The two tombstone reads, the iteration order of hash tables and the
home directory are arguments. -/
structure TickInput where
  sessions : List OpencodeServiceSession
  screenLive : Finset (List Char)
  terminalTitles : List Char → Option (List Char)
  spawnTombstoned : List Char → Bool
  birthTombstoned : List Char → Bool
  order : IterationOrder (List Char)
  defaultCwd : List Char

/-- The prefixes that `local_runtime_id_from_key` strips. -/
def runtimePrefixes : List (List Char) :=
  ["local://", "codex-runtime://", "cc-runtime://", "pi-runtime://", "opencode-runtime://",
    "qwen-runtime://", "kimi-runtime://", "muse-runtime://", "agy-runtime://", "grok-runtime://",
    "zcode-tui-runtime://", "devin-runtime://", "mimo-runtime://", "live::", "document::",
    "codex://", "codex::", "codex-litellm://", "codex-litellm::", "local::"].map String.toList

def localRuntimeIdFromKey (key : List Char) : Option (List Char) :=
  ((runtimePrefixes.find? fun scheme => scheme.isPrefixOf key).map fun scheme =>
    key.drop scheme.length).filter fun id => trim id ≠ []

def storageLabel : List Char := "Storage".toList

namespace Plane

def resolveSessionStorageKey (plane : Plane) (path : List Char) : Option (List Char) :=
  if path ∈ plane then some path
  else ((plane.toList.find? fun entry => entry.2.sessionPath = path).or
    (plane.toList.find? fun entry => entry.2.metadataValue storageLabel = some path)).map Prod.fst

/-- `resolve_live_session_entry`: by key, by storage path, by the canonical local key, and by
the path of the row. -/
def resolveLiveSessionEntry (plane : Plane) (path : List Char) : Option (List Char × Row) :=
  ((plane[path]?).map fun row => (path, row)).or <|
    (plane.toList.find? fun entry =>
      entry.2.source ≠ .stored ∧ entry.2.metadataValue storageLabel = some path).or <|
    ((localRuntimeIdFromKey path).bind fun id =>
      (plane["local://".toList ++ id]?).map fun row => ("local://".toList ++ id, row)).or <|
    plane.toList.find? fun entry => entry.2.sessionPath = path

def removeLiveSession (plane : Plane) (path : List Char) : Plane :=
  match resolveLiveSessionEntry plane path with
  | none => plane
  | some (key, row) => if row.source = .stored then plane else plane.erase key

/-- `apply_agent_runtime_session_id_to_live_session_service_vouched`. -/
def bindSessionId (plane : Plane) (path sessionId : List Char) : Plane :=
  if trim sessionId = [] then plane
  else match resolveSessionStorageKey plane path with
    | none => plane
    | some key => plane.modify key fun row =>
        if row.source = .stored then row else { row with id := sessionId }

end Plane

/-- What a row is born with for a session of the service. -/
def buildLiveSession (input : TickInput) (ses : OpencodeServiceSession) : Row where
  id := ses.id
  sessionPath := spawnKey ses.id
  kind := .openCode
  source := .liveLocal
  launchPhase := .bridgePending
  metadata := [(sourceLabel, "local-opencode".toList), ("UUID".toList, ses.id),
    ("Cwd".toList, ses.directory.getD input.defaultCwd)]
  terminalProcessId := none

def stampDirectory (ses : OpencodeServiceSession) (row : Row) : Row :=
  match ses.directory with
  | none => row
  | some directory => upsertSessionMetadata "Cwd".toList directory row

def stampViewed (ses : OpencodeServiceSession) (row : Row) : Row :=
  if 0 < ses.viewedEpochMs then
    upsertSessionMetadata viewedMetadata (Nat.toDigits 10 ses.viewedEpochMs) row
  else row

/-- The two stamps of the mirror. -/
def stampOwned (ses : OpencodeServiceSession) (row : Row) : Row :=
  upsertSessionMetadata tabSessionIdMetadata ses.id
    (upsertSessionMetadata sourceLabel tabSourceMetadata row)

def adopt (ses : OpencodeServiceSession) (row : Row) : Row :=
  if mirrorProjectionRow row then row else stampDirectory ses (stampOwned ses row)

/-- A row for a session, unless the user closed it. -/
def birth (input : TickInput) (plane : Plane) (ses : OpencodeServiceSession) : Plane :=
  if input.birthTombstoned (spawnKey ses.id) then plane
  else plane.insert (spawnKey ses.id) (buildLiveSession input ses)

/-- One session of the plan, with what is left of the budget.  A row that is born when nothing
is left goes without the stamps. -/
def spawnOne (input : TickInput) (state : Plane × Nat) (ses : OpencodeServiceSession) :
    Plane × Nat :=
  if spawnKey ses.id ∈ state.1 then (state.1.modify (spawnKey ses.id) (adopt ses), state.2)
  else match state.2 with
    | 0 => (birth input state.1 ses, 0)
    | budget + 1 => ((birth input state.1 ses).modify (spawnKey ses.id) fun row =>
        stampViewed ses (stampDirectory ses (stampOwned ses { row with launchPhase := .queued })),
        budget)

def spawnAll (input : TickInput) (plane : Plane) (spawn : List OpencodeServiceSession) : Plane :=
  ((spawn.filter fun ses => !input.spawnTombstoned (spawnKey ses.id)).foldl (spawnOne input)
    (plane, spawnBudgetPerTick)).1

def anchorRowIsLive (screenLive : Finset (List Char)) (row : Row) : Bool :=
  row.terminalProcessId.isSome || row.launchPhase = .running ||
    row.launchPhase = .remoteBootstrap || row.sessionPath ∈ screenLive

def opencodeAnchorCandidates (plane : Plane) : List Row :=
  (plane.toList.map Prod.snd).filter fun row =>
    row.kind = .openCode && runtimeScheme.isPrefixOf row.sessionPath && !mirrorProjectionRow row

def opencodeAnchorKey (plane : Plane) (screenLive : Finset (List Char)) : Option (List Char) :=
  let candidates := opencodeAnchorCandidates plane
  ((candidates.find? (anchorRowIsLive screenLive)).or candidates.head?).map Row.sessionPath

/-- More than forty characters are cut to thirty-seven and three dots. -/
def opencodeTitleWindow (title : List Char) : List Char :=
  if 40 < title.length then title.take 37 ++ "...".toList else title

def uniqueSessionByTitle (sessions : List OpencodeServiceSession) (name : List Char) :
    Option OpencodeServiceSession :=
  match sessions.filter fun ses => opencodeTitleWindow (ses.title.getD []) = name with
  | [ses] => some ses
  | _ => none

/-- The session that the window title of a row names. -/
def titledSession (input : TickInput) (path : List Char) : Option OpencodeServiceSession :=
  (input.terminalTitles path).bind fun title =>
    if "OC | ".toList <+: title then
      uniqueSessionByTitle input.sessions (title.drop "OC | ".toList.length)
    else none

/-- The session that the anchor shows. -/
def viewing (input : TickInput) (anchorKey : List Char) : Option (List Char) :=
  ((newestViewed input.sessions).or (titledSession input anchorKey)).map
    OpencodeServiceSession.id

def stampViewing (shown : Option (List Char)) (row : Row) : Row :=
  match shown with
  | some ses => upsertSessionMetadata viewingSessionMetadata ses row
  | none =>
      { row with metadata := row.metadata.filter fun entry => entry.1 ≠ viewingSessionMetadata }

/-- The anchor is bound to the session it shows. -/
def rebindAnchor (input : TickInput) (plane : Plane) (anchorKey : List Char) : Plane :=
  match (plane[anchorKey]?).any (anchorRowIsLive input.screenLive), viewing input anchorKey with
  | true, some ses =>
      if (plane[anchorKey]?).map Row.id ≠ some ses then plane.bindSessionId anchorKey ses else plane
  | _, _ => plane

/-- Another row is bound to the session that its own window names. -/
def rebindTitled (input : TickInput) (plane : Plane) (row : Row) : Plane :=
  match titledSession input row.sessionPath with
  | none => plane
  | some ses =>
      if row.id ≠ ses.id ∧
          (plane[row.sessionPath]?).any (anchorRowIsLive input.screenLive) = true then
        plane.bindSessionId row.sessionPath ses.id
      else plane

def followViewing (input : TickInput) (anchorKey : Option (List Char)) (plane : Plane) : Plane :=
  match anchorKey with
  | none => plane
  | some anchorKey =>
      let stamped := plane.modify anchorKey (stampViewing (viewing input anchorKey))
      let rebound := rebindAnchor input stamped anchorKey
      ((opencodeAnchorCandidates rebound).filter fun row => row.sessionPath ≠ anchorKey).foldl
        (rebindTitled input) rebound

/-- The view that was followed is recorded on its row. -/
def recordFocus (input : TickInput) (owned : Finmap fun _ : List Char => OwnedTab)
    (focus : Option (List Char)) (plane : Plane) : Plane :=
  match focus.bind fun id => (input.sessions.find? fun ses => ses.id = id).bind fun newest =>
      (owned.lookup id).map fun tab => (newest, tab.key) with
  | none => plane
  | some (newest, key) => plane.modify key (stampViewed newest)

/-- The rows that a plan retires. -/
def retiredKeys (owned : Finmap fun _ : List Char => OwnedTab) (plan : TabSyncPlan) :
    List (List Char) :=
  plan.retire.filterMap fun ses => (owned.lookup ses).map OwnedTab.key

def tickPlan (plane : Plane) (input : TickInput) : TabSyncPlan :=
  planTabSync input.order input.sessions (ownedTabsFrom plane)
    (pinnedStableFrom (ownedTabsFrom plane) (opencodeAnchorKey plane input.screenLive)) plane

def applyOpencodeTabMirror (plane : Plane) (input : TickInput) : Plane :=
  let owned := ownedTabsFrom plane
  let anchorKey := opencodeAnchorKey plane input.screenLive
  let plan := tickPlan plane input
  let spawned := spawnAll input plane plan.spawn
  let retired := (retiredKeys owned plan).foldl Plane.removeLiveSession spawned
  let retracted := (plan.retract.map spawnKey).foldl Plane.removeLiveSession retired
  recordFocus input owned plan.focus (followViewing input anchorKey retracted)

end Yggterm.OpencodeMirror
