import Yggterm.OpencodeMirror.Launches
import Yggterm.OpencodeMirror.Removals

/-!
# The rows that a tick births

The budget is to hold back new rows, but it is asked once the row is there, and holds back the
stamps and the launch command instead.
-/

namespace Yggterm.OpencodeMirror

open HashMaps Text

/-- The row of a session that is born within the budget. -/
def stampedRow (input : TickInput) (ses : OpencodeServiceSession) : Row :=
  stampViewed ses <| stampDirectory ses <| stampOwned ses
    { buildLiveSession input ses with launchPhase := .queued }

/-- The sessions that have no row. -/
def absentFrom (plane : Plane) (sessions : List OpencodeServiceSession) :
    List OpencodeServiceSession :=
  sessions.filter fun ses => spawnKey ses.id ∉ plane

theorem mem_iff_getElem?_ne_none {plane : Plane} {key : List Char} :
    key ∈ plane ↔ plane[key]? ≠ none := by
  rw [Std.TreeMap.mem_iff_isSome_getElem?, Option.isSome_iff_ne_none]

theorem mem_congr {plane other : Plane} {key : List Char} (same : plane[key]? = other[key]?) :
    key ∈ plane ↔ key ∈ other := by
  rw [mem_iff_getElem?_ne_none, mem_iff_getElem?_ne_none, same]

theorem absentFrom_congr {plane other : Plane} {sessions : List OpencodeServiceSession}
    (same : ∀ ses ∈ sessions, plane[spawnKey ses.id]? = other[spawnKey ses.id]?) :
    absentFrom plane sessions = absentFrom other sessions := by
  apply List.filter_congr
  intro ses member
  rw [decide_eq_decide, mem_congr (same ses member)]

/-! ## One session -/

section Spawn

variable (launches : Launches) {input : TickInput} {ses : OpencodeServiceSession} {key : List Char}

theorem lookup_birth_of_ne {plane : Plane} (different : spawnKey ses.id ≠ key) :
    (birth input plane ses)[key]? = plane[key]? := by
  unfold birth
  split
  · rfl
  · rw [lookup_insert, if_neg different]

theorem lookup_birth_self {plane : Plane}
    (welcome : input.birthTombstoned (spawnKey ses.id) = false) :
    (birth input plane ses)[spawnKey ses.id]? = some (buildLiveSession input ses) := by
  rw [birth, welcome, if_neg Bool.false_ne_true, lookup_insert, if_pos rfl]

/-- A session touches no row but its own. -/
theorem spawnOne_of_ne (input : TickInput) (state : Rail × Nat)
    (different : spawnKey ses.id ≠ key) :
    (Rail.spawnOne launches input state ses).1.rows[key]? = state.1.rows[key]? ∧
      (Rail.spawnOne launches input state ses).1.commands key = state.1.commands key := by
  obtain ⟨rail, budget⟩ := state
  have rows := Rail.rows_spawnOne launches input rail budget ses
  have isRows := congrArg Prod.fst rows
  dsimp only at isRows
  have born : (Rail.birth launches input rail ses).commands key = rail.commands key := by
    unfold Rail.birth
    split
    · rfl
    · rw [Rail.commands_setCommand, if_neg (Ne.symm different), Rail.commands_onRows]
  by_cases found : spawnKey ses.id ∈ rail.rows
  · rw [isRows, spawnOne, if_pos found, Rail.spawnOne, if_pos found, lookup_modify,
      if_neg different]
    exact ⟨rfl, rfl⟩
  · rw [isRows, spawnOne, if_neg found, Rail.spawnOne, if_neg found]
    cases budget with
    | zero => exact ⟨lookup_birth_of_ne different, born⟩
    | succ budget =>
        dsimp only
        rw [lookup_modify, if_neg different]
        refine ⟨lookup_birth_of_ne different, ?_⟩
        split
        · rw [Rail.commands_setCommand, if_neg (Ne.symm different)]
          exact born
        · exact born

/-- Within the budget the row has its stamps, and the command that resumes the session. -/
theorem spawnOne_within {rail : Rail} (absent : spawnKey ses.id ∉ rail.rows)
    (welcome : input.birthTombstoned (spawnKey ses.id) = false) (budget : Nat) :
    (Rail.spawnOne launches input (rail, budget + 1) ses).1.rows[spawnKey ses.id]? =
        some (stampedRow input ses) ∧
      (Rail.spawnOne launches input (rail, budget + 1) ses).1.commands (spawnKey ses.id) =
        launches.resume ses.id ses.directory := by
  have born : spawnKey ses.id ∈ (Rail.birth launches input rail ses).rows := by
    rw [Rail.rows_birth, mem_iff_getElem?_ne_none, lookup_birth_self welcome]
    exact Option.some_ne_none _
  rw [Rail.spawnOne, if_neg absent]
  dsimp only
  rw [if_pos born, Rail.rows_setCommand, Rail.rows_onRows, Rail.rows_birth, lookup_modify,
    if_pos rfl, lookup_birth_self welcome, Rail.commands_setCommand, if_pos rfl]
  exact ⟨rfl, rfl⟩

/-- Beyond the budget the row is there and nothing else. -/
theorem spawnOne_beyond {rail : Rail} (absent : spawnKey ses.id ∉ rail.rows)
    (welcome : input.birthTombstoned (spawnKey ses.id) = false) :
    (Rail.spawnOne launches input (rail, 0) ses).1.rows[spawnKey ses.id]? =
      some (buildLiveSession input ses) := by
  rw [Rail.spawnOne, if_neg absent]
  dsimp only
  rw [Rail.rows_birth, lookup_birth_self welcome]

theorem spawnOne_vetoed {state : Rail × Nat} (absent : spawnKey ses.id ∉ state.1.rows)
    (closed : input.birthTombstoned (spawnKey ses.id) = true) :
    spawnKey ses.id ∉ (Rail.spawnOne launches input state ses).1.rows := by
  obtain ⟨rail, budget⟩ := state
  have rows := congrArg Prod.fst (Rail.rows_spawnOne launches input rail budget ses)
  dsimp only at rows absent
  have notBorn : birth input rail.rows ses = rail.rows := by rw [birth, if_pos closed]
  rw [rows, spawnOne, if_neg absent, notBorn]
  cases budget with
  | zero => exact absent
  | succ budget =>
      rw [mem_iff_getElem?_ne_none, not_not, lookup_modify, if_pos rfl,
        Std.TreeMap.getElem?_eq_none absent]
      rfl

theorem budget_of_mem {state : Rail × Nat} (found : spawnKey ses.id ∈ state.1.rows) :
    (Rail.spawnOne launches input state ses).2 = state.2 := by
  rw [Rail.spawnOne, if_pos found]

theorem budget_of_absent {state : Rail × Nat} (absent : spawnKey ses.id ∉ state.1.rows) :
    (Rail.spawnOne launches input state ses).2 = state.2 - 1 := by
  rw [Rail.spawnOne, if_neg absent]
  cases state.2 <;> rfl

end Spawn

/-! ## The sessions of a plan -/

section SpawnAll

variable (launches : Launches) (input : TickInput)

/-- The sessions of a plan, one after the other. -/
def spawnFrom (state : Rail × Nat) (spawn : List OpencodeServiceSession) : Rail × Nat :=
  spawn.foldl (Rail.spawnOne launches input) state

variable {input}

theorem spawnFrom_of_ne {spawn : List OpencodeServiceSession} {key : List Char}
    (different : ∀ ses ∈ spawn, spawnKey ses.id ≠ key) (state : Rail × Nat) :
    (spawnFrom launches input state spawn).1.rows[key]? = state.1.rows[key]? ∧
      (spawnFrom launches input state spawn).1.commands key = state.1.commands key := by
  induction spawn generalizing state with
  | nil => exact ⟨rfl, rfl⟩
  | cons first rest inductionHypothesis =>
      obtain ⟨isDifferent, restDifferent⟩ := List.forall_mem_cons.mp different
      obtain ⟨sameRow, sameCommand⟩ := spawnOne_of_ne launches input state isDifferent
      obtain ⟨restRow, restCommand⟩ := inductionHypothesis restDifferent
        (Rail.spawnOne launches input state first)
      exact ⟨restRow.trans sameRow, restCommand.trans sameCommand⟩

theorem spawnKey_ne {first : OpencodeServiceSession} {rest : List OpencodeServiceSession}
    (distinct : ((first :: rest).map OpencodeServiceSession.id).Nodup) :
    ∀ ses ∈ rest, spawnKey first.id ≠ spawnKey ses.id := by
  intro ses member same
  apply (List.nodup_cons.mp distinct).1
  rw [spawnKey_injective same]
  exact List.mem_map_of_mem member

/-- A session makes no other a session with a row. -/
theorem absentFrom_spawnOne {first : OpencodeServiceSession} {rest : List OpencodeServiceSession}
    (distinct : ((first :: rest).map OpencodeServiceSession.id).Nodup) (state : Rail × Nat) :
    absentFrom (Rail.spawnOne launches input state first).1.rows rest =
      absentFrom state.1.rows rest :=
  absentFrom_congr fun ses member =>
    (spawnOne_of_ne launches input state (spawnKey_ne distinct ses member)).1

/-- The rows of the first sessions without one are born with stamps and command. -/
theorem spawnFrom_within {spawn : List OpencodeServiceSession}
    (distinct : (spawn.map OpencodeServiceSession.id).Nodup) (state : Rail × Nat)
    {ses : OpencodeServiceSession}
    (member : ses ∈ (absentFrom state.1.rows spawn).take state.2)
    (welcome : input.birthTombstoned (spawnKey ses.id) = false) :
    (spawnFrom launches input state spawn).1.rows[spawnKey ses.id]? =
        some (stampedRow input ses) ∧
      (spawnFrom launches input state spawn).1.commands (spawnKey ses.id) =
        launches.resume ses.id ses.directory := by
  induction spawn generalizing state with
  | nil => cases (List.take_nil (i := state.2)) ▸ member
  | cons first rest inductionHypothesis =>
      have restDistinct := (List.nodup_cons.mp distinct).2
      have later := inductionHypothesis restDistinct (Rail.spawnOne launches input state first)
      rw [absentFrom_spawnOne launches distinct] at later
      by_cases found : spawnKey first.id ∈ state.1.rows
      · rw [budget_of_mem launches found] at later
        rw [absentFrom, List.filter_cons_of_neg (by simpa using found)] at member
        exact later member
      · rw [budget_of_absent launches found] at later
        rw [absentFrom, List.filter_cons_of_pos (by simpa using found)] at member
        obtain ⟨rail, budget⟩ := state
        cases budget with
        | zero => cases member
        | succ budget =>
            rcases List.mem_cons.mp member with rfl | isLater
            · obtain ⟨isRow, isCommand⟩ := spawnOne_within launches found welcome budget
              obtain ⟨sameRow, sameCommand⟩ := spawnFrom_of_ne launches
                (fun other isOther => (spawnKey_ne distinct other isOther).symm)
                (Rail.spawnOne launches input (rail, budget + 1) ses)
              exact ⟨sameRow.trans isRow, sameCommand.trans isCommand⟩
            · exact later isLater

/-- The rows of the other sessions without one are born without. -/
theorem spawnFrom_beyond {spawn : List OpencodeServiceSession}
    (distinct : (spawn.map OpencodeServiceSession.id).Nodup) (state : Rail × Nat)
    {ses : OpencodeServiceSession}
    (member : ses ∈ (absentFrom state.1.rows spawn).drop state.2)
    (welcome : input.birthTombstoned (spawnKey ses.id) = false) :
    (spawnFrom launches input state spawn).1.rows[spawnKey ses.id]? =
      some (buildLiveSession input ses) := by
  induction spawn generalizing state with
  | nil => cases (List.drop_nil (i := state.2)) ▸ member
  | cons first rest inductionHypothesis =>
      have restDistinct := (List.nodup_cons.mp distinct).2
      have later := inductionHypothesis restDistinct (Rail.spawnOne launches input state first)
      rw [absentFrom_spawnOne launches distinct] at later
      by_cases found : spawnKey first.id ∈ state.1.rows
      · rw [budget_of_mem launches found] at later
        rw [absentFrom, List.filter_cons_of_neg (by simpa using found)] at member
        exact later member
      · rw [budget_of_absent launches found] at later
        rw [absentFrom, List.filter_cons_of_pos (by simpa using found)] at member
        obtain ⟨rail, budget⟩ := state
        cases budget with
        | zero =>
            rcases List.mem_cons.mp member with rfl | isLater
            · have isRow := spawnOne_beyond launches found welcome
              exact (spawnFrom_of_ne launches
                (fun other isOther => (spawnKey_ne distinct other isOther).symm) _).1.trans isRow
            · exact later isLater
        | succ budget => exact later member

/-- A row that is born is that of a session that had none and was not closed. -/
theorem exists_of_spawned {spawn : List OpencodeServiceSession} (state : Rail × Nat)
    {key : List Char} (absent : key ∉ state.1.rows)
    (born : key ∈ (spawnFrom launches input state spawn).1.rows) :
    ∃ ses ∈ spawn, spawnKey ses.id = key ∧ input.birthTombstoned key = false := by
  induction spawn generalizing state with
  | nil => exact absurd born absent
  | cons first rest inductionHypothesis =>
      have later (stillAbsent : key ∉ (Rail.spawnOne launches input state first).1.rows) :
          ∃ ses ∈ first :: rest, spawnKey ses.id = key ∧ input.birthTombstoned key = false := by
        obtain ⟨ses, member, isKey⟩ := inductionHypothesis _ stillAbsent born
        exact ⟨ses, List.mem_cons_of_mem first member, isKey⟩
      by_cases isFirst : spawnKey first.id = key
      · subst isFirst
        cases closed : input.birthTombstoned (spawnKey first.id) with
        | true => exact closed ▸ later (spawnOne_vetoed launches absent closed)
        | false => exact ⟨first, List.mem_cons_self, rfl, rfl⟩
      · apply later
        rwa [mem_congr (spawnOne_of_ne launches input state isFirst).1]

end SpawnAll

/-! ## The rest of the tick -/

/-- Nothing but its own key finds the row. -/
structure Lone (key : List Char) (row : Row) : Prop where
  keyed : runtimeScheme <+: key
  own : row.sessionPath = key
  unstored : row.metadataValue storageLabel = none

theorem ne_of_resolveLiveSessionEntry {plane : Plane} {key path : List Char} {row : Row}
    (found : plane[key]? = some row) (lone : Lone key row) (different : path ≠ key)
    {entry : List Char × Row} (resolved : plane.resolveLiveSessionEntry path = some entry) :
    entry.1 ≠ key := by
  have isRow {other : List Char × Row} (member : other ∈ plane.toList) (isKey : other.1 = key) :
      other.2 = row := by
    have isOther := mem_toList_iff.mp (show (other.1, other.2) ∈ plane.toList from member)
    rw [isKey, found] at isOther
    exact (Option.some.inj isOther).symm
  intro isKey
  simp only [Plane.resolveLiveSessionEntry, Option.or_eq_some_iff] at resolved
  rcases resolved with byKey | ⟨_, byStorage | ⟨_, byLocal | ⟨_, byPath⟩⟩⟩
  · obtain ⟨_, _, rfl⟩ := Option.map_eq_some_iff.mp byKey
    exact different isKey
  · have stored := List.find?_some byStorage
    rw [decide_eq_true_eq, isRow (List.mem_of_find?_eq_some byStorage) isKey, lone.unstored]
      at stored
    cases stored.2
  · obtain ⟨id, _, isLocal⟩ := Option.bind_eq_some_iff.mp byLocal
    obtain ⟨_, _, rfl⟩ := Option.map_eq_some_iff.mp isLocal
    have keyed := lone.keyed
    rw [← isKey] at keyed
    have short := List.prefix_of_prefix_length_le (List.prefix_append "local://".toList id) keyed
      (by decide)
    exact absurd short (by decide)
  · have isPath := List.find?_some byPath
    rw [decide_eq_true_eq, isRow (List.mem_of_find?_eq_some byPath) isKey, lone.own] at isPath
    exact different isPath.symm

/-- Such a row stays when others are removed. -/
theorem lookup_removeLiveSession {plane : Plane} {key path : List Char} {row : Row}
    (found : plane[key]? = some row) (lone : Lone key row) (different : path ≠ key) :
    (plane.removeLiveSession path)[key]? = some row := by
  rw [Plane.removeLiveSession]
  cases resolved : plane.resolveLiveSessionEntry path with
  | none => exact found
  | some entry =>
      dsimp only
      split
      · exact found
      · rw [lookup_erase, if_neg (ne_of_resolveLiveSessionEntry found lone different resolved)]
        exact found

theorem lookup_foldl_removeLiveSession {paths : List (List Char)} {plane : Plane}
    {key : List Char} {row : Row} (found : plane[key]? = some row) (lone : Lone key row)
    (different : ∀ path ∈ paths, path ≠ key) :
    (paths.foldl Plane.removeLiveSession plane)[key]? = some row :=
  List.foldlRecOn (motive := fun plane : Plane => plane[key]? = some row) _ _ found
    fun _ kept path member => lookup_removeLiveSession kept lone (different path member)

theorem not_mem_removeLiveSession {plane : Plane} {key : List Char} (absent : key ∉ plane)
    (path : List Char) : key ∉ plane.removeLiveSession path := by
  rw [Plane.removeLiveSession]
  cases plane.resolveLiveSessionEntry path with
  | none => exact absent
  | some entry =>
      dsimp only
      split
      · exact absent
      · rw [mem_iff_getElem?_ne_none, not_not, lookup_erase, Std.TreeMap.getElem?_eq_none absent,
          ite_self]

theorem not_mem_foldl_removeLiveSession {plane : Plane} {key : List Char} (absent : key ∉ plane)
    (paths : List (List Char)) : key ∉ paths.foldl Plane.removeLiveSession plane :=
  List.foldlRecOn (motive := fun plane : Plane => key ∉ plane) _ _ absent
    fun _ kept path _ => not_mem_removeLiveSession kept path

section FollowViewing

variable (launches : Launches) {input : TickInput} {key : List Char} {shows : Row → Prop}

/-- Binding another row that is there leaves this one. -/
theorem bindSessionId_of_ne {rail : Rail} {path : List Char} (member : path ∈ rail.rows)
    (different : path ≠ key) (sessionId : List Char) :
    (rail.bindSessionId launches path sessionId).rows[key]? = rail.rows[key]? ∧
      (rail.bindSessionId launches path sessionId).commands key = rail.commands key := by
  have isKey : rail.rows.resolveSessionStorageKey path = some path := if_pos member
  constructor
  · rw [Rail.rows_bindSessionId, Plane.bindSessionId, isKey]
    split
    · rfl
    · dsimp only
      rw [lookup_modify, if_neg different]
  · rw [Rail.bindSessionId, isKey]
    split
    · rfl
    · dsimp only
      split
      · rfl
      · split
        · rfl
        · rw [Rail.commands_setCommand, if_neg different.symm, Rail.commands_onRows]

/-- The row under a key is of a kind, and it has a command. -/
def Stays (shows : Row → Prop) (key command : List Char) (rail : Rail) : Prop :=
  (∃ row, rail.rows[key]? = some row ∧ shows row) ∧ rail.commands key = command

variable (idle : ∀ row, shows row → anchorRowIsLive input.screenLive row = false)
include idle

/-- A row that is not live is not bound. -/
theorem stays_bindSessionId {rail : Rail} {command path : List Char}
    (stays : Stays shows key command rail)
    (live : (rail.rows[path]?).any (anchorRowIsLive input.screenLive) = true)
    (sessionId : List Char) :
    Stays shows key command (rail.bindSessionId launches path sessionId) := by
  obtain ⟨⟨row, isRow, isShown⟩, isCommand⟩ := stays
  obtain ⟨liveRow, isLiveRow, isLive⟩ := (Option.any_eq_true _ _).mp live
  have different : path ≠ key := by
    rintro rfl
    rw [isRow, Option.some.injEq] at isLiveRow
    rw [← isLiveRow, idle row isShown] at isLive
    cases isLive
  have member : path ∈ rail.rows := by
    rw [mem_iff_getElem?_ne_none, isLiveRow]
    exact Option.some_ne_none _
  obtain ⟨sameRow, sameCommand⟩ := bindSessionId_of_ne launches member different sessionId
  exact ⟨⟨row, sameRow.trans isRow, isShown⟩, sameCommand.trans isCommand⟩

theorem stays_rebindAnchor {rail : Rail} {command : List Char}
    (stays : Stays shows key command rail) (anchorKey : List Char) :
    Stays shows key command (Rail.rebindAnchor launches input rail anchorKey) := by
  rw [Rail.rebindAnchor]
  cases live : (rail.rows[anchorKey]?).any (anchorRowIsLive input.screenLive) with
  | false => exact stays
  | true =>
      cases viewing input anchorKey with
      | none => exact stays
      | some ses =>
          dsimp only
          split
          · exact stays_bindSessionId launches idle stays live ses
          · exact stays

theorem stays_rebindTitled {rail : Rail} {command : List Char}
    (stays : Stays shows key command rail) (row : Row) :
    Stays shows key command (Rail.rebindTitled launches input rail row) := by
  rw [Rail.rebindTitled]
  cases titledSession input row.sessionPath with
  | none => exact stays
  | some ses =>
      dsimp only
      split
      · next live => exact stays_bindSessionId launches idle stays live.2 ses.id
      · exact stays

theorem stays_followViewing
    (viewed : ∀ shown row, shows row → shows (stampViewing shown row)) {rail : Rail}
    {command : List Char} (stays : Stays shows key command rail)
    (anchorKey : Option (List Char)) :
    Stays shows key command (Rail.followViewing launches input anchorKey rail) := by
  cases anchorKey with
  | none => exact stays
  | some anchorKey =>
      rw [Rail.followViewing]
      refine List.foldlRecOn (motive := Stays shows key command) _ _ ?_
        fun _ kept row _ => stays_rebindTitled launches idle kept row
      apply stays_rebindAnchor launches idle
      obtain ⟨⟨row, isRow, isShown⟩, isCommand⟩ := stays
      refine ⟨?_, isCommand⟩
      rw [Rail.rows_onRows, lookup_modify, isRow]
      split
      · exact ⟨_, rfl, viewed _ row isShown⟩
      · exact ⟨row, rfl, isShown⟩

end FollowViewing

/-! ## The whole tick -/

section Tick

variable {launches : Launches} {input : TickInput} {rail : Rail} {key : List Char}

theorem mem_of_mem_removals {plane : Plane} {path : List Char}
    (member : path ∈ retiredKeys (ownedTabsFrom plane) (tickPlan plane input) ++
      (tickPlan plane input).retract.map spawnKey) : path ∈ plane := by
  obtain ⟨source, isSource⟩ := sourceAt_of_mem_removals member
  rw [mem_iff_getElem?_ne_none]
  intro absent
  rw [sourceAt_eq_none_iff.mpr absent] at isSource
  cases isSource

theorem lookup_recordFocus_of_not_mem {plane after : Plane} (absent : key ∉ plane)
    (focus : Option (List Char)) :
    (recordFocus input (ownedTabsFrom plane) focus after)[key]? = after[key]? := by
  unfold recordFocus
  split
  · rfl
  · next newest tabKey isFocus =>
      obtain ⟨id, _, isTab⟩ := Option.bind_eq_some_iff.mp isFocus
      obtain ⟨_, _, isOwned⟩ := Option.bind_eq_some_iff.mp isTab
      obtain ⟨tab, owned, isKey⟩ := Option.map_eq_some_iff.mp isOwned
      obtain ⟨row, found, _⟩ := row_of_owned owned
      have different : tabKey ≠ key := by
        rintro rfl
        cases isKey
        rw [Std.TreeMap.getElem?_eq_none absent] at found
        cases found
      rw [lookup_modify, if_neg different]

/-- What is born and not live leaves the tick as it was born. -/
theorem stays_tick {shows : Row → Prop}
    (idle : ∀ row, shows row → anchorRowIsLive input.screenLive row = false)
    (viewed : ∀ shown row, shows row → shows (stampViewing shown row)) {row : Row}
    (absent : key ∉ rail.rows)
    (found : (Rail.spawnAll launches input rail (tickPlan rail.rows input).spawn).rows[key]? =
      some row) (lone : Lone key row) (isShown : shows row) :
    Stays shows key
      ((Rail.spawnAll launches input rail (tickPlan rail.rows input).spawn).commands key)
      (Rail.tick launches input rail) := by
  have removed : ∀ path ∈ retiredKeys (ownedTabsFrom rail.rows) (tickPlan rail.rows input) ++
      (tickPlan rail.rows input).retract.map spawnKey, path ≠ key := by
    rintro path member rfl
    exact absent (mem_of_mem_removals member)
  have kept := lookup_foldl_removeLiveSession found lone removed
  rw [List.foldl_append] at kept
  rw [Rail.tick]
  have beforeFollowing : Stays shows key
      ((Rail.spawnAll launches input rail (tickPlan rail.rows input).spawn).commands key)
      ((Rail.spawnAll launches input rail (tickPlan rail.rows input).spawn).onRows fun rows =>
        ((tickPlan rail.rows input).retract.map spawnKey).foldl Plane.removeLiveSession
          ((retiredKeys (ownedTabsFrom rail.rows) (tickPlan rail.rows input)).foldl
            Plane.removeLiveSession rows)) := ⟨⟨row, kept, isShown⟩, rfl⟩
  obtain ⟨⟨last, isLast, shownLast⟩, isCommand⟩ := stays_followViewing launches idle viewed
    beforeFollowing (opencodeAnchorKey rail.rows input.screenLive)
  refine ⟨⟨last, ?_, shownLast⟩, isCommand⟩
  rw [Rail.rows_onRows, lookup_recordFocus_of_not_mem absent]
  exact isLast

/-- What is there after a tick was there once its rows were born. -/
theorem mem_spawned_of_mem_tick
    (present : key ∈ (Rail.tick launches input rail).rows) :
    key ∈ (Rail.spawnAll launches input rail (tickPlan rail.rows input).spawn).rows := by
  by_contra notBorn
  rw [Rail.rows_spawnAll] at notBorn
  rw [Rail.rows_tick, applyOpencodeTabMirror, mem_iff_getElem?_ne_none, Ne, ← sourceAt_eq_none_iff,
    sourceAt_recordFocus, sourceAt_followViewing, sourceAt_eq_none_iff, ← Ne,
    ← mem_iff_getElem?_ne_none] at present
  exact not_mem_foldl_removeLiveSession (not_mem_foldl_removeLiveSession notBorn _) _ present

end Tick

/-! ## Complete births -/

/-- The keys that a tick adds. -/
def bornKeys (before after : Plane) : List (List Char) := after.keys.filter fun key => key ∉ before

/-- No more rows are born than the budget allows, and each has its stamps and the command that
resumes its session. -/
structure BirthsComplete (launches : Launches) (input : TickInput) (before after : Rail) :
    Prop where
  within : (bornKeys before.rows after.rows).length ≤ spawnBudgetPerTick
  complete : ∀ key ∈ bornKeys before.rows after.rows, ∃ ses ∈ input.sessions, ∃ row,
    key = spawnKey ses.id ∧ after.rows[key]? = some row ∧
      row.metadataValue sourceLabel = some tabSourceMetadata ∧
      row.metadataValue tabSessionIdMetadata = some ses.id ∧
      after.commands key = launches.resume ses.id ses.directory

/-- The listed sessions that no row stands for, whose key is free and was not closed. -/
def unseated (plane : Plane) (input : TickInput) : List OpencodeServiceSession :=
  input.sessions.filter fun ses => ses.id ∉ ownedTabsFrom plane ∧
    input.spawnTombstoned (spawnKey ses.id) = false ∧ spawnKey ses.id ∉ plane

/-- A row under its source and session stamps that is not live. -/
structure Stands (screenLive : Finset (List Char)) (source : List Char)
    (stamp : Option (List Char)) (row : Row) : Prop where
  idle : anchorRowIsLive screenLive row = false
  sourced : row.metadataValue sourceLabel = some source
  stamped : row.metadataValue tabSessionIdMetadata = stamp

theorem Stands.stampViewing {screenLive : Finset (List Char)} {source : List Char}
    {stamp : Option (List Char)} (shown : Option (List Char)) {row : Row}
    (stands : Stands screenLive source stamp row) :
    Stands screenLive source stamp (stampViewing shown row) where
  idle := by
    rw [← stands.idle]
    unfold OpencodeMirror.stampViewing
    split <;> rfl
  sourced := (metadataValue_stampViewing (by decide) shown row).trans stands.sourced
  stamped := (tabStamp_stampViewing shown row).trans stands.stamped

section Rows

variable (input : TickInput) (ses : OpencodeServiceSession)

theorem stampedRow_eq : stampedRow input ses = { buildLiveSession input ses with
    launchPhase := .queued, metadata := (stampedRow input ses).metadata } := by
  unfold stampedRow stampViewed stampDirectory
  split <;> split <;> rfl

theorem lone_buildLiveSession : Lone (spawnKey ses.id) (buildLiveSession input ses) where
  keyed := List.prefix_append _ _
  own := rfl
  unstored := rfl

theorem lone_stampedRow : Lone (spawnKey ses.id) (stampedRow input ses) where
  keyed := List.prefix_append _ _
  own := by rw [stampedRow_eq]; rfl
  unstored := by
    rw [stampedRow, metadataValue_stampViewed (by decide), metadataValue_stampDirectory (by decide)]
    rfl

variable {input ses} (hidden : spawnKey ses.id ∉ input.screenLive)
include hidden

theorem stands_buildLiveSession : Stands input.screenLive "local-opencode".toList none
    (buildLiveSession input ses) where
  idle := by simp [anchorRowIsLive, buildLiveSession, hidden]
  sourced := rfl
  stamped := tabStamp_buildLiveSession input ses

theorem stands_stampedRow : Stands input.screenLive tabSourceMetadata (some ses.id)
    (stampedRow input ses) where
  idle := by
    rw [stampedRow_eq]
    simp [anchorRowIsLive, buildLiveSession, hidden]
  sourced := by
    rw [stampedRow, metadataValue_stampViewed (by decide), metadataValue_stampDirectory (by decide)]
    rfl
  stamped := by
    rw [stampedRow, tabStamp_stampViewed, tabStamp_stampDirectory, tabStamp_stampOwned]

end Rows

theorem absentFrom_plan (plane : Plane) (input : TickInput) :
    absentFrom plane ((tickPlan plane input).spawn.filter fun ses =>
      !input.spawnTombstoned (spawnKey ses.id)) = unseated plane input := by
  rw [absentFrom, tickPlan, planTabSync, unseated]
  simp only [List.filter_filter]
  apply List.filter_congr
  intro ses _
  simp [and_comm, and_assoc]

theorem mem_bornKeys {before after : Plane} {key : List Char} :
    key ∈ bornKeys before after ↔ key ∈ after ∧ key ∉ before := by
  rw [bornKeys, List.mem_filter, decide_eq_true_eq, Std.TreeMap.mem_keys]

theorem nodup_bornKeys (before after : Plane) : (bornKeys before after).Nodup := by
  have distinct : after.keys.Pairwise fun first second => ¬ compare first second = .eq :=
    Std.TreeMap.distinct_keys
  refine List.Nodup.filter _ (distinct.imp ?_)
  rintro first _ different rfl
  exact different Std.ReflCmp.compare_self

section Births

variable (launches : Launches) {input : TickInput} {rail : Rail}
  (distinct : (input.sessions.map OpencodeServiceSession.id).Nodup)
  (onScreen : ∀ path ∈ input.screenLive, path ∈ rail.rows)

theorem mem_unseated {plane : Plane} {ses : OpencodeServiceSession} :
    ses ∈ unseated plane input ↔ ses ∈ input.sessions ∧ ses.id ∉ ownedTabsFrom plane ∧
      input.spawnTombstoned (spawnKey ses.id) = false ∧ spawnKey ses.id ∉ plane := by
  rw [unseated, List.mem_filter, decide_eq_true_eq]

theorem exists_unseated_of_born {key : List Char}
    (born : key ∈ bornKeys rail.rows (Rail.tick launches input rail).rows) :
    ∃ ses ∈ unseated rail.rows input,
      spawnKey ses.id = key ∧ input.birthTombstoned key = false := by
  obtain ⟨present, absent⟩ := mem_bornKeys.mp born
  obtain ⟨ses, member, rfl, welcome⟩ := exists_of_spawned launches
    (rail, spawnBudgetPerTick) absent (mem_spawned_of_mem_tick present)
  refine ⟨ses, ?_, rfl, welcome⟩
  rw [← absentFrom_plan]
  exact List.mem_filter.mpr ⟨member, decide_eq_true absent⟩

include distinct

theorem distinct_plan (plane : Plane) : (((tickPlan plane input).spawn.filter fun ses =>
    !input.spawnTombstoned (spawnKey ses.id)).map OpencodeServiceSession.id).Nodup :=
  distinct.sublist ((List.filter_sublist.trans List.filter_sublist).map _)

include onScreen

/-- Within the budget the births are complete. -/
theorem born_within {ses : OpencodeServiceSession}
    (member : ses ∈ (unseated rail.rows input).take spawnBudgetPerTick)
    (welcome : input.birthTombstoned (spawnKey ses.id) = false) :
    Stays (Stands input.screenLive tabSourceMetadata (some ses.id)) (spawnKey ses.id)
      (launches.resume ses.id ses.directory) (Rail.tick launches input rail) := by
  obtain ⟨_, _, _, absent⟩ := mem_unseated.mp (List.mem_of_mem_take member)
  rw [← absentFrom_plan] at member
  obtain ⟨isRow, isCommand⟩ := spawnFrom_within launches
    (distinct_plan distinct rail.rows) (rail, spawnBudgetPerTick) member welcome
  have stays := stays_tick (fun _ => Stands.idle) (fun shown _ => Stands.stampViewing shown) absent
    isRow (lone_stampedRow input ses) (stands_stampedRow (mt (onScreen _) absent))
  exact ⟨stays.1, stays.2.trans isCommand⟩

/-- Beyond the budget they lack the stamp. -/
theorem born_beyond {ses : OpencodeServiceSession}
    (member : ses ∈ (unseated rail.rows input).drop spawnBudgetPerTick)
    (welcome : input.birthTombstoned (spawnKey ses.id) = false) :
    ∃ row, (Rail.tick launches input rail).rows[spawnKey ses.id]? = some row ∧
      row.metadataValue sourceLabel = some "local-opencode".toList := by
  obtain ⟨_, _, _, absent⟩ := mem_unseated.mp (List.mem_of_mem_drop member)
  rw [← absentFrom_plan] at member
  have isRow := spawnFrom_beyond launches (distinct_plan distinct rail.rows)
    (rail, spawnBudgetPerTick) member welcome
  obtain ⟨⟨row, found, stands⟩, _⟩ := stays_tick (fun _ => Stands.idle)
    (fun shown _ => Stands.stampViewing shown) absent isRow (lone_buildLiveSession input ses)
    (stands_buildLiveSession (mt (onScreen _) absent))
  exact ⟨row, found, stands.sourced⟩

end Births

/-- Where every session beyond the budget was closed, a born row is the row of a session within
it. -/
theorem exists_within_of_born (launches : Launches) {input : TickInput} {rail : Rail}
    (closed : ∀ ses ∈ (unseated rail.rows input).drop spawnBudgetPerTick,
      input.birthTombstoned (spawnKey ses.id) = true)
    {key : List Char} (born : key ∈ bornKeys rail.rows (Rail.tick launches input rail).rows) :
    ∃ ses ∈ (unseated rail.rows input).take spawnBudgetPerTick,
      spawnKey ses.id = key ∧ input.birthTombstoned key = false := by
  obtain ⟨ses, member, rfl, welcome⟩ := exists_unseated_of_born launches born
  rw [← List.take_append_drop spawnBudgetPerTick (unseated rail.rows input),
    List.mem_append] at member
  rcases member with early | late
  · exact ⟨ses, early, rfl, welcome⟩
  · rw [closed ses late] at welcome
    cases welcome

theorem length_bornKeys_le_budget (launches : Launches) {input : TickInput} {rail : Rail}
    (closed : ∀ ses ∈ (unseated rail.rows input).drop spawnBudgetPerTick,
      input.birthTombstoned (spawnKey ses.id) = true) :
    (bornKeys rail.rows (Rail.tick launches input rail).rows).length ≤ spawnBudgetPerTick := by
  have few : bornKeys rail.rows (Rail.tick launches input rail).rows ⊆
      ((unseated rail.rows input).take spawnBudgetPerTick).map fun ses => spawnKey ses.id := by
    intro key born
    obtain ⟨ses, member, isKey, _⟩ := exists_within_of_born launches closed born
    exact List.mem_map.mpr ⟨ses, member, isKey⟩
  calc (bornKeys rail.rows (Rail.tick launches input rail).rows).length
      ≤ (((unseated rail.rows input).take spawnBudgetPerTick).map
          fun ses => spawnKey ses.id).length :=
        ((nodup_bornKeys _ _).subperm few).length_le
    _ ≤ spawnBudgetPerTick := by
        rw [List.length_map]
        exact List.length_take_le _ _

def openCodeLaunches : Launches where
  fresh _ cwd := "cd ".toList ++ cwd ++ " && opencode".toList
  resume id _ := "opencode --session ".toList ++ id
  vouched _ cwd id _ := "cd ".toList ++ cwd ++ " && opencode --session ".toList ++ id

def bareRail : Rail where
  rows := ∅
  commands _ := []

/-- A tab of the service. -/
def freshTab (id : List Char) : OpencodeServiceSession := ⟨id, none, some "/w".toList, 0⟩

end Yggterm.OpencodeMirror
