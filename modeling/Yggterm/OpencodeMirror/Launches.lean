import Yggterm.Library.Patterns
import Yggterm.OpencodeMirror.Tick

/-!
# The launch commands of a tick

A row also carries the command that starts it.  The commands are kept beside the plane here: a
tick writes them where it births or binds a row and never reads them to decide on one, so
without them it is the tick of the plane.
-/

namespace Yggterm.OpencodeMirror

open HashMaps Patterns Text

/-- How launch commands are composed: at birth from the id and the directory, to resume a session,
and where a row is bound to a session that the service vouches for. -/
structure Launches where
  fresh : List Char → List Char → List Char
  resume : List Char → Option (List Char) → List Char
  vouched : SessionKind → List Char → List Char → List Char → List Char

/-- The rows with the launch commands under their keys. -/
structure Rail where
  rows : Plane
  commands : List Char → List Char

/-- `agent_cli_descriptor(kind).is_some()`. -/
def isAgentCli (kind : SessionKind) : Bool :=
  kind ≠ .shell && kind ≠ .sshShell && kind ≠ .document

/-- `repoint_stored_launch_command_session_id`, where it applies. -/
def repointStoredLaunchCommandSessionId (previousId newId command : List Char) :
    Option (List Char) :=
  if trim previousId ≠ [] ∧ previousId ≠ newId ∧ previousId <:+: command then
    some (replaceAll previousId newId command)
  else none

/-- The command of a live row that is bound to a session. -/
def boundCommand (launches : Launches) (row : Row) (sessionId command : List Char) : List Char :=
  (repointStoredLaunchCommandSessionId row.id sessionId command).getD <|
    if row.source = .liveLocal ∧ isAgentCli row.kind = true then
      ((row.metadataValue "Cwd".toList).map fun cwd =>
        launches.vouched row.kind cwd sessionId command).getD command
    else command

namespace Rail

def setCommand (rail : Rail) (key command : List Char) : Rail :=
  { rail with commands := fun other => if other = key then command else rail.commands other }

def onRows (rail : Rail) (change : Plane → Plane) : Rail := { rail with rows := change rail.rows }

def bindSessionId (launches : Launches) (rail : Rail) (path sessionId : List Char) : Rail :=
  if trim sessionId = [] then rail
  else match rail.rows.resolveSessionStorageKey path with
    | none => rail
    | some key =>
        let bound := rail.onRows fun rows => rows.bindSessionId path sessionId
        match rail.rows[key]? with
        | none => bound
        | some row =>
            if row.source = .stored ∨ row.id = sessionId then bound
            else bound.setCommand key (boundCommand launches row sessionId (rail.commands key))

def birth (launches : Launches) (input : TickInput) (rail : Rail) (ses : OpencodeServiceSession) :
    Rail :=
  if input.birthTombstoned (spawnKey ses.id) then rail
  else (rail.onRows fun rows => OpencodeMirror.birth input rows ses).setCommand (spawnKey ses.id)
    (launches.fresh ses.id (ses.directory.getD input.defaultCwd))

/-- One session of the plan.  The command that resumes it is written after the budget test. -/
def spawnOne (launches : Launches) (input : TickInput) (state : Rail × Nat)
    (ses : OpencodeServiceSession) : Rail × Nat :=
  if spawnKey ses.id ∈ state.1.rows then
    (state.1.onRows fun rows => rows.modify (spawnKey ses.id) (adopt ses), state.2)
  else
    let born := birth launches input state.1 ses
    match state.2 with
    | 0 => (born, 0)
    | budget + 1 =>
        let stamped := born.onRows fun rows => rows.modify (spawnKey ses.id) fun row =>
          stampViewed ses (stampDirectory ses (stampOwned ses { row with launchPhase := .queued }))
        (if spawnKey ses.id ∈ born.rows then
          stamped.setCommand (spawnKey ses.id) (launches.resume ses.id ses.directory)
        else stamped, budget)

def spawnAll (launches : Launches) (input : TickInput) (rail : Rail)
    (spawn : List OpencodeServiceSession) : Rail :=
  ((spawn.filter fun ses => !input.spawnTombstoned (spawnKey ses.id)).foldl
    (spawnOne launches input) (rail, spawnBudgetPerTick)).1

def rebindAnchor (launches : Launches) (input : TickInput) (rail : Rail) (anchorKey : List Char) :
    Rail :=
  match (rail.rows[anchorKey]?).any (anchorRowIsLive input.screenLive),
      viewing input anchorKey with
  | true, some ses =>
      if (rail.rows[anchorKey]?).map Row.id ≠ some ses then
        rail.bindSessionId launches anchorKey ses
      else rail
  | _, _ => rail

def rebindTitled (launches : Launches) (input : TickInput) (rail : Rail) (row : Row) : Rail :=
  match titledSession input row.sessionPath with
  | none => rail
  | some ses =>
      if row.id ≠ ses.id ∧
          (rail.rows[row.sessionPath]?).any (anchorRowIsLive input.screenLive) = true then
        rail.bindSessionId launches row.sessionPath ses.id
      else rail

def followViewing (launches : Launches) (input : TickInput) (anchorKey : Option (List Char))
    (rail : Rail) : Rail :=
  match anchorKey with
  | none => rail
  | some anchorKey =>
      let stamped := rail.onRows fun rows =>
        rows.modify anchorKey (stampViewing (viewing input anchorKey))
      let rebound := rebindAnchor launches input stamped anchorKey
      ((opencodeAnchorCandidates rebound.rows).filter fun row => row.sessionPath ≠ anchorKey).foldl
        (rebindTitled launches input) rebound

/-- `apply_opencode_tab_mirror`, with the launch commands. -/
def tick (launches : Launches) (input : TickInput) (rail : Rail) : Rail :=
  let owned := ownedTabsFrom rail.rows
  let anchorKey := opencodeAnchorKey rail.rows input.screenLive
  let plan := tickPlan rail.rows input
  let spawned := spawnAll launches input rail plan.spawn
  let removed := spawned.onRows fun rows => (plan.retract.map spawnKey).foldl
    Plane.removeLiveSession ((retiredKeys owned plan).foldl Plane.removeLiveSession rows)
  (followViewing launches input anchorKey removed).onRows (recordFocus input owned plan.focus)

/-! ## Without the commands -/

variable (launches : Launches) (input : TickInput) (rail : Rail)

@[simp]
theorem rows_setCommand (key command : List Char) :
    (rail.setCommand key command).rows = rail.rows :=
  rfl

@[simp]
theorem rows_onRows (change : Plane → Plane) : (rail.onRows change).rows = change rail.rows := rfl

@[simp]
theorem commands_onRows (change : Plane → Plane) : (rail.onRows change).commands = rail.commands :=
  rfl

@[simp]
theorem commands_setCommand (key command other : List Char) :
    (rail.setCommand key command).commands other =
      if other = key then command else rail.commands other :=
  rfl

theorem rows_bindSessionId (path sessionId : List Char) :
    (rail.bindSessionId launches path sessionId).rows =
      rail.rows.bindSessionId path sessionId := by
  rw [bindSessionId, Plane.bindSessionId]
  by_cases blank : trim sessionId = []
  · rw [if_pos blank, if_pos blank]
  · rw [if_neg blank, if_neg blank]
    cases isKey : rail.rows.resolveSessionStorageKey path with
    | none => rfl
    | some key =>
        have bound : rail.rows.bindSessionId path sessionId = rail.rows.modify key fun row =>
            if row.source = .stored then row else { row with id := sessionId } := by
          rw [Plane.bindSessionId, if_neg blank, isKey]
        dsimp only
        rw [← bound]
        cases rail.rows[key]? with
        | none => rfl
        | some row =>
            dsimp only
            split <;> rfl

theorem rows_birth (ses : OpencodeServiceSession) :
    (birth launches input rail ses).rows = OpencodeMirror.birth input rail.rows ses := by
  by_cases closed : input.birthTombstoned (spawnKey ses.id)
  · rw [birth, if_pos closed, OpencodeMirror.birth, if_pos closed]
  · rw [birth, if_neg closed]
    rfl

theorem rows_spawnOne (budget : Nat) (ses : OpencodeServiceSession) :
    ((spawnOne launches input (rail, budget) ses).1.rows,
        (spawnOne launches input (rail, budget) ses).2) =
      OpencodeMirror.spawnOne input (rail.rows, budget) ses := by
  by_cases found : spawnKey ses.id ∈ rail.rows
  · rw [spawnOne, if_pos found, OpencodeMirror.spawnOne, if_pos found]
    rfl
  · rw [spawnOne, if_neg found, OpencodeMirror.spawnOne, if_neg found, ← rows_birth launches]
    cases budget with
    | zero => rfl
    | succ budget =>
        dsimp only
        split <;> rfl

theorem rows_spawnAll (spawn : List OpencodeServiceSession) :
    (spawnAll launches input rail spawn).rows =
      OpencodeMirror.spawnAll input rail.rows spawn := by
  rw [spawnAll, OpencodeMirror.spawnAll]
  generalize spawn.filter _ = spawn
  generalize spawnBudgetPerTick = budget
  induction spawn generalizing rail budget with
  | nil => rfl
  | cons ses rest inductionHypothesis =>
      rw [List.foldl_cons, List.foldl_cons, ← rows_spawnOne launches input rail budget ses]
      exact inductionHypothesis _ _

theorem rows_rebindAnchor (anchorKey : List Char) :
    (rebindAnchor launches input rail anchorKey).rows =
      OpencodeMirror.rebindAnchor input rail.rows anchorKey := by
  rw [rebindAnchor, OpencodeMirror.rebindAnchor]
  cases (rail.rows[anchorKey]?).any (anchorRowIsLive input.screenLive) with
  | false => rfl
  | true =>
      cases viewing input anchorKey with
      | none => rfl
      | some ses =>
          dsimp only
          split
          · exact rows_bindSessionId launches rail anchorKey ses
          · rfl

theorem rows_rebindTitled (row : Row) :
    (rebindTitled launches input rail row).rows =
      OpencodeMirror.rebindTitled input rail.rows row := by
  rw [rebindTitled, OpencodeMirror.rebindTitled]
  cases titledSession input row.sessionPath with
  | none => rfl
  | some ses =>
      dsimp only
      split
      · exact rows_bindSessionId launches rail row.sessionPath ses.id
      · rfl

theorem rows_followViewing (anchorKey : Option (List Char)) :
    (followViewing launches input anchorKey rail).rows =
      OpencodeMirror.followViewing input anchorKey rail.rows := by
  have titled : ∀ (rows : List Row) (rail : Rail),
      (rows.foldl (rebindTitled launches input) rail).rows =
        rows.foldl (OpencodeMirror.rebindTitled input) rail.rows := by
    intro rows
    induction rows with
    | nil => exact fun _ => rfl
    | cons row rest inductionHypothesis =>
        intro rail
        rw [List.foldl_cons, List.foldl_cons, inductionHypothesis, rows_rebindTitled]
  cases anchorKey with
  | none => rfl
  | some anchorKey =>
      rw [followViewing, OpencodeMirror.followViewing, titled, rows_rebindAnchor, rows_onRows]

/-- Without the commands it is the tick of the plane. -/
theorem rows_tick :
    (tick launches input rail).rows = applyOpencodeTabMirror rail.rows input := by
  rw [tick, applyOpencodeTabMirror, rows_onRows, rows_followViewing, rows_onRows, rows_spawnAll]

end Rail

end Yggterm.OpencodeMirror
