import Yggterm.Library.Runs
import Yggterm.Retirement.Sweep

/-!
# A retiring daemon

The daemon over its whole life: it opens and closes sessions, sweeps them over to successors,
watches each successor through its settle window (`spawn_handoff_settle_watch` of
`yggterm-server/src/daemon.rs`), and exits or takes its sessions back.  The other callers of
`park_reader` are the resource governor and the teardown of a refused remote runtime.
-/

namespace Yggterm.Retirement

open Runs

/-- A settle watch: the parks it would wake, and whether it may let the process exit. -/
structure Watch where
  parked : List Nat
  allMoved : Bool
  /-- Parks made after the sweep are numbered from here. -/
  mark : Nat
  deriving DecidableEq

structure Daemon where
  terminals : Terminals
  nextPark : Nat
  /-- The watches whose window is not over. -/
  watches : List Watch
  /-- Sweeps that left something, whose successor outlived its window. -/
  settled : List Watch
  exited : Option Watch
  deriving DecidableEq

def initialDaemon : Daemon :=
  { terminals := ⟨.empty, ∅⟩, nextPark := 0, watches := [], settled := [], exited := none }

/-! ## The terminal manager -/

def Terminals.hasSession (terminals : Terminals) (key : Key) : Bool :=
  (terminals.sessions.get? key).any (·.running)

def Terminals.holdsSession (terminals : Terminals) (key : Key) : Bool :=
  (terminals.sessions.get? key).isSome

/-- `park_reader`: it parks the reader, and hands back its park. -/
def Terminals.parkReader (terminals : Terminals) (key : Key) : Terminals × Option Nat :=
  match terminals.sessions.get? key with
  | none => (terminals, none)
  | some runtime =>
      ({ terminals with parked := insert runtime.park terminals.parked }, some runtime.park)

def Terminals.renameSession (terminals : Terminals) (source target : Key) : Terminals :=
  if source = target || terminals.holdsSession target then terminals
  else
    match terminals.sessions.get? source with
    | none => terminals
    | some runtime =>
        { terminals with sessions := (terminals.sessions.erase source).insert target runtime }

def Terminals.childExits (terminals : Terminals) (key : Key) : Terminals :=
  match terminals.sessions.get? key with
  | none => terminals
  | some runtime =>
      { terminals with sessions := terminals.sessions.insert key { runtime with running := false } }

/-- `shutdown_all`: a parked reader means that another daemon serves the pty. -/
def Terminals.shutdownAll (terminals : Terminals) : Terminals :=
  { terminals with
    sessions := terminals.sessions.filter fun _ runtime => runtime.park ∈ terminals.parked }

/-! ## The daemon's steps -/

/-- Seats a runtime of its own under the key. -/
def Daemon.seats (daemon : Daemon) (key : Key) : Daemon :=
  { daemon with
    terminals := { daemon.terminals with
      sessions := daemon.terminals.sessions.insert key ⟨daemon.nextPark, true⟩ }
    nextPark := daemon.nextPark + 1 }

def Daemon.ensureSession (daemon : Daemon) (key : Key) : Daemon :=
  if daemon.terminals.hasSession key then daemon else daemon.seats key

/-- A sweep, and the watch over what it parked. -/
def Daemon.sweeps (daemon : Daemon) (surroundings : Surroundings) (attempts : List Attempt) :
    Daemon :=
  match handOffAllRuntimes surroundings daemon.terminals attempts with
  | none => daemon
  | some (terminals, outcome, _) =>
      { daemon with
        terminals
        watches :=
          if outcome.parked = [] then daemon.watches
          else daemon.watches ++ [⟨outcome.parked, outcome.allMoved, daemon.nextPark⟩] }

def Terminals.unparkAll (terminals : Terminals) (parks : List Nat) : Terminals :=
  { terminals with parked := terminals.parked \ parks.toFinset }

/-- The end of a settle watch. -/
def Daemon.settles (daemon : Daemon) (index : Nat) (survived : Bool) : Daemon :=
  match daemon.watches[index]? with
  | none => daemon
  | some watch =>
      let watches := daemon.watches.eraseIdx index
      if !survived then
        { daemon with terminals := daemon.terminals.unparkAll watch.parked, watches }
      else if !watch.allMoved then { daemon with watches, settled := watch :: daemon.settled }
      else { daemon with watches, exited := some watch }

def Daemon.governorParkReader (daemon : Daemon) (key : Key) : Daemon × Bool :=
  let parked := daemon.terminals.parkReader key
  ({ daemon with terminals := parked.1 }, parked.2.isSome)

def Daemon.teardownRefusedRemoteRuntime (daemon : Daemon) (key : Key) : Daemon :=
  if !daemon.terminals.hasSession key then daemon
  else
    let parked := daemon.terminals.parkReader key
    if parked.2.any fun park => park ∈ parked.1.parked then { daemon with terminals := parked.1 }
    else { daemon with terminals := parked.1.removeSession key }

inductive Action where
  | ensures (key : Key)
  /-- A restart, or an adoption that displaces what is there. -/
  | replaces (key : Key)
  | removes (key : Key)
  | renames (source target : Key)
  | childExits (key : Key)
  | shutsDownAll
  | sweeps (surroundings : Surroundings) (attempts : List Attempt)
  | settles (index : Nat) (survived : Bool)
  | governorParks (key : Key)
  | tearsDownRefused (key : Key)

def Daemon.does (daemon : Daemon) : Action → Daemon
  | .ensures key => daemon.ensureSession key
  | .replaces key => daemon.seats key
  | .removes key => { daemon with terminals := daemon.terminals.removeSession key }
  | .renames source target =>
      { daemon with terminals := daemon.terminals.renameSession source target }
  | .childExits key => { daemon with terminals := daemon.terminals.childExits key }
  | .shutsDownAll => { daemon with terminals := daemon.terminals.shutdownAll }
  | .sweeps surroundings attempts => daemon.sweeps surroundings attempts
  | .settles index survived => daemon.settles index survived
  | .governorParks key => (daemon.governorParkReader key).1
  | .tearsDownRefused key => daemon.teardownRefusedRemoteRuntime key

/-- Once the process has exited, nothing happens any more. -/
def step (daemon : Daemon) (action : Action) : Daemon :=
  if daemon.exited.isSome then daemon else daemon.does action

/-! ## Sessions and their parks -/

/-- Parks are made one after another, each for one runtime. -/
structure Sound (daemon : Daemon) : Prop where
  apart : daemon.terminals.Apart
  stored : ∀ key runtime, daemon.terminals.sessions.get? key = some runtime →
    runtime.park < daemon.nextPark
  parked : ∀ park ∈ daemon.terminals.parked, park < daemon.nextPark

/-- A step that brings no session of its own: each session that is left was there before, under
some key, and its reader is parked only if it was. -/
structure Thins (before after : Terminals) : Prop where
  apart : before.Apart → after.Apart
  stored : ∀ key runtime, after.sessions.get? key = some runtime →
    ∃ other earlier, before.sessions.get? other = some earlier ∧ earlier.park = runtime.park ∧
      (runtime.running = true → earlier.running = true)
  parked : after.parked ⊆ before.parked

theorem thins_of_subset {before after : Terminals} (parked : after.parked ⊆ before.parked)
    (stored : ∀ key runtime, after.sessions.get? key = some runtime →
      before.sessions.get? key = some runtime) : Thins before after where
  apart := fun apart key other runtime otherRuntime isStored otherStored =>
    apart key other runtime otherRuntime (stored key runtime isStored)
      (stored other otherRuntime otherStored)
  stored := fun key runtime isStored => ⟨key, runtime, stored key runtime isStored, rfl, id⟩
  parked := parked

theorem thins_removeSession (terminals : Terminals) (key : Key) :
    Thins terminals (terminals.removeSession key) := by
  refine thins_of_subset (Finset.Subset.refl _) fun other runtime stored => ?_
  rw [Terminals.removeSession, OrderedMap.get?_erase] at stored
  split at stored
  · cases stored
  · exact stored

theorem thins_shutdownAll (terminals : Terminals) : Thins terminals terminals.shutdownAll := by
  refine thins_of_subset (Finset.Subset.refl _) fun key runtime stored => ?_
  rw [Terminals.shutdownAll, OrderedMap.get?_filter] at stored
  exact (Option.filter_eq_some_iff.mp stored).1

theorem thins_unparkAll (terminals : Terminals) (parks : List Nat) :
    Thins terminals (terminals.unparkAll parks) :=
  thins_of_subset Finset.sdiff_subset fun _ _ stored => stored

theorem thins_childExits (terminals : Terminals) (key : Key) :
    Thins terminals (terminals.childExits key) := by
  unfold Terminals.childExits
  split
  · exact thins_of_subset (Finset.Subset.refl _) fun _ _ stored => stored
  · next runtime isStored =>
      have earlier {other : Key} {later : Runtime}
          (stored : (terminals.sessions.insert key { runtime with running := false }).get? other =
            some later) :
          ∃ first, terminals.sessions.get? other = some first ∧ first.park = later.park ∧
            (later.running = true → first.running = true) := by
        rw [OrderedMap.get?_insert] at stored
        split at stored
        · next same =>
            obtain rfl := Option.some.inj stored
            exact ⟨runtime, same ▸ isStored, rfl, fun running => Bool.noConfusion running⟩
        · exact ⟨later, stored, rfl, id⟩
      refine ⟨fun apart first second firstRuntime secondRuntime isFirst isSecond samePark => ?_,
        fun other later stored => ⟨other, earlier stored⟩, Finset.Subset.refl _⟩
      obtain ⟨firstEarlier, firstStored, firstPark, _⟩ := earlier isFirst
      obtain ⟨secondEarlier, secondStored, secondPark, _⟩ := earlier isSecond
      exact apart _ _ _ _ firstStored secondStored (by rw [firstPark, secondPark, samePark])

theorem thins_renameSession (terminals : Terminals) (source target : Key) :
    Thins terminals (terminals.renameSession source target) := by
  unfold Terminals.renameSession
  split
  · exact thins_of_subset (Finset.Subset.refl _) fun _ _ stored => stored
  split
  · exact thins_of_subset (Finset.Subset.refl _) fun _ _ stored => stored
  · next runtime isStored =>
      have earlier {other : Key} {later : Runtime}
          (stored : ((terminals.sessions.erase source).insert target runtime).get? other =
            some later) :
          (other = target ∧ later = runtime) ∨
            (other ≠ target ∧ other ≠ source ∧ terminals.sessions.get? other = some later) := by
        rw [OrderedMap.get?_insert] at stored
        split at stored
        · next same => exact .inl ⟨same, (Option.some.inj stored).symm⟩
        · next notTarget =>
            rw [OrderedMap.get?_erase] at stored
            split at stored
            · cases stored
            · next notSource => exact .inr ⟨notTarget, notSource, stored⟩
      refine ⟨fun apart first second firstRuntime secondRuntime isFirst isSecond samePark => ?_, ?_,
        Finset.Subset.refl _⟩
      · rcases earlier isFirst with ⟨rfl, rfl⟩ | ⟨_, firstOther, firstStored⟩ <;>
          rcases earlier isSecond with ⟨rfl, rfl⟩ | ⟨_, secondOther, secondStored⟩
        · rfl
        · exact absurd (apart _ _ _ _ isStored secondStored samePark).symm secondOther
        · exact absurd (apart _ _ _ _ firstStored isStored samePark) firstOther
        · exact apart _ _ _ _ firstStored secondStored samePark
      · intro other later stored
        rcases earlier stored with ⟨_, rfl⟩ | ⟨_, _, otherStored⟩
        · exact ⟨source, later, isStored, rfl, id⟩
        · exact ⟨other, later, otherStored, rfl, id⟩

theorem Sound.thins {before after : Daemon} (sound : Sound before)
    (thins : Thins before.terminals after.terminals) (nextPark : after.nextPark = before.nextPark) :
    Sound after where
  apart := thins.apart sound.apart
  stored := by
    intro key runtime isStored
    obtain ⟨other, earlier, otherStored, samePark, _⟩ := thins.stored key runtime isStored
    rw [nextPark, ← samePark]
    exact sound.stored other earlier otherStored
  parked := fun park isParked => nextPark ▸ sound.parked park (thins.parked isParked)

theorem Sound.seats {daemon : Daemon} (sound : Sound daemon) (key : Key) :
    Sound (daemon.seats key) where
  apart := by
    intro first second firstRuntime secondRuntime isFirst isSecond samePark
    change (daemon.terminals.sessions.insert key _).get? first = _ at isFirst
    change (daemon.terminals.sessions.insert key _).get? second = _ at isSecond
    rw [OrderedMap.get?_insert] at isFirst isSecond
    split at isFirst <;> split at isSecond
    · next firstSame secondSame => rw [firstSame, secondSame]
    · obtain rfl := Option.some.inj isFirst
      exact absurd samePark (Nat.ne_of_gt (sound.stored second secondRuntime isSecond))
    · obtain rfl := Option.some.inj isSecond
      exact absurd samePark (Nat.ne_of_lt (sound.stored first firstRuntime isFirst))
    · exact sound.apart _ _ _ _ isFirst isSecond samePark
  stored := by
    intro other runtime isStored
    change (daemon.terminals.sessions.insert key _).get? other = _ at isStored
    rw [OrderedMap.get?_insert] at isStored
    change runtime.park < daemon.nextPark + 1
    split at isStored
    · obtain rfl := Option.some.inj isStored
      exact Nat.lt_succ_self _
    · exact Nat.lt_succ_of_lt (sound.stored other runtime isStored)
  parked := fun park isParked => Nat.lt_succ_of_lt (sound.parked park isParked)

theorem Sound.parkReader {before after : Daemon} (sound : Sound before) (key : Key)
    (terminals : after.terminals = (before.terminals.parkReader key).1)
    (nextPark : after.nextPark = before.nextPark) : Sound after := by
  unfold Terminals.parkReader at terminals
  split at terminals
  · exact sound.thins (terminals ▸ thins_of_subset (Finset.Subset.refl _) fun _ _ stored => stored)
      nextPark
  · next runtime isStored =>
      refine ⟨?_, ?_, ?_⟩
      · rw [terminals]
        exact sound.apart
      · rw [terminals, nextPark]
        exact sound.stored
      · rw [terminals, nextPark]
        intro park isParked
        rcases Finset.mem_insert.mp isParked with rfl | already
        · exact sound.stored key runtime isStored
        · exact sound.parked park already

/-- Parking first and asking afterwards whether the reader is parked: the teardown never gets
further than the park. -/
theorem teardown_eq (daemon : Daemon) (key : Key) :
    daemon.teardownRefusedRemoteRuntime key =
      if daemon.terminals.hasSession key then (daemon.governorParkReader key).1 else daemon := by
  unfold Daemon.teardownRefusedRemoteRuntime Daemon.governorParkReader
  cases live : daemon.terminals.hasSession key with
  | false => rfl
  | true =>
      unfold Terminals.hasSession at live
      unfold Terminals.parkReader
      cases isStored : daemon.terminals.sessions.get? key with
      | none => rw [isStored] at live; cases live
      | some runtime => simp

/-- What a sweep does to the daemon, when it returns. -/
theorem sweeps_spec {daemon : Daemon} (sound : Sound daemon) (surroundings : Surroundings)
    (attempts : List Attempt) :
    daemon.sweeps surroundings attempts = daemon ∨
      ∃ after outcome rest segments,
        Account surroundings daemon.terminals after outcome attempts rest segments ∧
          daemon.sweeps surroundings attempts =
            { daemon with
              terminals := after
              watches :=
                if outcome.parked = [] then daemon.watches
                else daemon.watches ++ [⟨outcome.parked, outcome.allMoved, daemon.nextPark⟩] } := by
  unfold Daemon.sweeps
  cases returned : handOffAllRuntimes surroundings daemon.terminals attempts with
  | none => exact .inl rfl
  | some swept =>
      obtain ⟨after, outcome, rest⟩ := swept
      obtain ⟨segments, account⟩ := sweep_accounts sound.apart returned
      exact .inr ⟨after, outcome, rest, segments, account, rfl⟩

section Swept

variable {surroundings : Surroundings} {before after : Terminals} {outcome : HandoffSweepOutcome}
variable {attempts rest : List Attempt} {segments : List Segment}

theorem Account.stored (account : Account surroundings before after outcome attempts rest segments)
    {key : Key} {runtime : Runtime} (isStored : after.sessions.get? key = some runtime) :
    before.sessions.get? key = some runtime ∧ key ∉ conflictKeys segments := by
  rw [account.sessions] at isStored
  split at isStored
  · cases isStored
  · next noConflict => exact ⟨isStored, noConflict⟩

/-- A session that is parked after a sweep moved in it, or was parked before and dead. -/
theorem Account.parked_cases
    (account : Account surroundings before after outcome attempts rest segments) {key : Key}
    {runtime : Runtime} (isStored : before.sessions.get? key = some runtime)
    (isParked : runtime.park ∈ after.parked) :
    runtime.park ∈ outcome.parked ∨ runtime.park ∈ before.parked := by
  have parked := (account.parked key runtime isStored).mp isParked
  split at parked
  · exact .inl ((account.held _).mpr ⟨key, parked, runtime, isStored, rfl⟩)
  · exact .inr parked

/-- After a sweep that moved everything, each live session that is left is one that moved. -/
theorem Account.all_held
    (account : Account surroundings before after outcome attempts rest segments)
    (allMoved : outcome.allMoved = true) {key : Key} {runtime : Runtime}
    (isStored : after.sessions.get? key = some runtime) (running : runtime.running = true) :
    runtime.park ∈ outcome.parked := by
  obtain ⟨storedBefore, noConflict⟩ := account.stored isStored
  have isKey := mem_sessionKeys.mpr ⟨runtime, storedBefore, running⟩
  rcases (account.allMoved.mp allMoved).2 key isKey with moved | dropped
  · exact (account.held _).mpr ⟨key, moved, runtime, storedBefore, rfl⟩
  · obtain ⟨segment, isSegment, rfl⟩ := List.mem_map.mp dropped
    obtain ⟨member, isDropped⟩ := List.mem_filter.mp isSegment
    have isConflict := isConflict_of_isDropped isDropped
    exact absurd (List.mem_map_of_mem (List.mem_filter.mpr ⟨member, isConflict⟩)) noConflict

end Swept

theorem Sound.sweeps {daemon : Daemon} (sound : Sound daemon) (surroundings : Surroundings)
    (attempts : List Attempt) : Sound (daemon.sweeps surroundings attempts) := by
  rcases sweeps_spec sound surroundings attempts with same |
    ⟨after, outcome, rest, segments, account, isAfter⟩
  · rw [same]
    exact sound
  · rw [isAfter]
    refine ⟨?_, ?_, ?_⟩
    · intro first second firstRuntime secondRuntime isFirst isSecond
      exact sound.apart _ _ _ _ (account.stored isFirst).1 (account.stored isSecond).1
    · exact fun key runtime isStored => sound.stored key runtime (account.stored isStored).1
    · intro park isParked
      rcases account.bounded park isParked with already | ⟨key, runtime, isStored, rfl⟩
      · exact sound.parked park already
      · exact sound.stored key runtime isStored

/-- What the end of a watch does. -/
theorem settles_spec (daemon : Daemon) (index : Nat) (survived : Bool) :
    daemon.settles index survived = daemon ∨
      ∃ watch, daemon.watches[index]? = some watch ∧
        ((survived = false ∧ daemon.settles index survived =
            { daemon with
              terminals := daemon.terminals.unparkAll watch.parked
              watches := daemon.watches.eraseIdx index }) ∨
          (watch.allMoved = false ∧ daemon.settles index survived =
            { daemon with
              watches := daemon.watches.eraseIdx index
              settled := watch :: daemon.settled }) ∨
          (survived = true ∧ watch.allMoved = true ∧ daemon.settles index survived =
            { daemon with watches := daemon.watches.eraseIdx index, exited := some watch })) := by
  unfold Daemon.settles
  cases isWatch : daemon.watches[index]? with
  | none => exact .inl rfl
  | some watch =>
      refine .inr ⟨watch, rfl, ?_⟩
      cases survived with
      | false => exact .inl ⟨rfl, rfl⟩
      | true =>
          cases allMoved : watch.allMoved with
          | false => exact .inr (.inl ⟨rfl, by simp [allMoved]⟩)
          | true => exact .inr (.inr ⟨rfl, rfl, by simp [allMoved]⟩)

theorem Sound.settles {daemon : Daemon} (sound : Sound daemon) (index : Nat) (survived : Bool) :
    Sound (daemon.settles index survived) := by
  rcases settles_spec daemon index survived with same |
    ⟨watch, _, ⟨_, died⟩ | ⟨_, left⟩ | ⟨_, _, exits⟩⟩
  · rw [same]
    exact sound
  · rw [died]
    exact sound.thins (thins_unparkAll _ _) rfl
  · rw [left]
    exact ⟨sound.apart, sound.stored, sound.parked⟩
  · rw [exits]
    exact ⟨sound.apart, sound.stored, sound.parked⟩

theorem Sound.step {daemon : Daemon} (sound : Sound daemon) (action : Action) :
    Sound (step daemon action) := by
  unfold Retirement.step
  split
  · exact sound
  cases action with
  | ensures key =>
      change Sound (daemon.ensureSession key)
      unfold Daemon.ensureSession
      split
      · exact sound
      · exact sound.seats key
  | replaces key => exact sound.seats key
  | removes key => exact sound.thins (thins_removeSession _ key) rfl
  | renames source target => exact sound.thins (thins_renameSession _ source target) rfl
  | childExits key => exact sound.thins (thins_childExits _ key) rfl
  | shutsDownAll => exact sound.thins (thins_shutdownAll _) rfl
  | sweeps surroundings attempts => exact sound.sweeps surroundings attempts
  | settles index survived => exact sound.settles index survived
  | governorParks key => exact sound.parkReader key rfl rfl
  | tearsDownRefused key =>
      change Sound (daemon.teardownRefusedRemoteRuntime key)
      rw [teardown_eq]
      split
      · exact sound.parkReader key rfl rfl
      · exact sound

theorem sound_initial : Sound initialDaemon := by
  refine ⟨?_, ?_, ?_⟩
  · intro key other runtime otherRuntime isStored
    cases isStored
  · intro key runtime isStored
    cases isStored
  · intro park isParked
    cases isParked

/-! ## Every parked reader is somebody's to wake -/

/-- A handover holds the park: its watch is on, or its successor outlived the window. -/
def Daemon.Covers (daemon : Daemon) (park : Nat) : Prop :=
  ∃ watch ∈ daemon.watches ++ daemon.settled ++ daemon.exited.toList, park ∈ watch.parked

/-- No session is parked that no handover holds: nobody would read it, and nobody wake it. -/
def Watched (daemon : Daemon) : Prop :=
  ∀ key runtime, daemon.terminals.sessions.get? key = some runtime →
    runtime.park ∈ daemon.terminals.parked → daemon.Covers runtime.park

/-- The resource governor and the teardown of a refused runtime come upon a session that is in a
handover already, or upon none. -/
def Spares (daemon : Daemon) : Action → Prop
  | .governorParks key => daemon.exited.isSome = true ∨
      ∀ runtime, daemon.terminals.sessions.get? key = some runtime → daemon.Covers runtime.park
  | .tearsDownRefused key => daemon.exited.isSome = true ∨
      ∀ runtime, daemon.terminals.sessions.get? key = some runtime → runtime.running = true →
        daemon.Covers runtime.park
  | _ => True

theorem Watched.thins {before after : Daemon} (watched : Watched before)
    (thins : Thins before.terminals after.terminals)
    (covers : ∀ park, before.Covers park → after.Covers park) : Watched after := by
  intro key runtime isStored isParked
  obtain ⟨other, earlier, otherStored, samePark, _⟩ := thins.stored key runtime isStored
  rw [← samePark] at isParked ⊢
  exact covers _ (watched other earlier otherStored (thins.parked isParked))

theorem Watched.seats {daemon : Daemon} (watched : Watched daemon) (sound : Sound daemon)
    (key : Key) : Watched (daemon.seats key) := by
  intro other runtime isStored isParked
  change (daemon.terminals.sessions.insert key _).get? other = _ at isStored
  rw [OrderedMap.get?_insert] at isStored
  split at isStored
  · obtain rfl := Option.some.inj isStored
    exact absurd (sound.parked _ isParked) (Nat.lt_irrefl _)
  · exact watched other runtime isStored isParked

theorem Watched.parkReader {before after : Daemon} (watched : Watched before) {key : Key}
    (terminals : after.terminals = (before.terminals.parkReader key).1)
    (covers : ∀ park, before.Covers park → after.Covers park)
    (held : ∀ runtime, before.terminals.sessions.get? key = some runtime →
      before.Covers runtime.park) : Watched after := by
  intro other runtime isStored isParked
  rw [terminals] at isStored isParked
  unfold Terminals.parkReader at isStored isParked
  split at isParked
  · next noSession =>
      rw [noSession] at isStored
      exact covers _ (watched other runtime isStored isParked)
  · next parked keyStored =>
      rw [keyStored] at isStored
      rcases Finset.mem_insert.mp isParked with samePark | already
      · exact samePark ▸ covers _ (held parked keyStored)
      · exact covers _ (watched other runtime isStored already)

theorem Watched.sweeps {daemon : Daemon} (watched : Watched daemon) (sound : Sound daemon)
    (surroundings : Surroundings) (attempts : List Attempt) :
    Watched (daemon.sweeps surroundings attempts) := by
  rcases sweeps_spec sound surroundings attempts with same |
    ⟨after, outcome, rest, segments, account, isAfter⟩
  · rw [same]
    exact watched
  rw [isAfter]
  intro key runtime isStored isParked
  obtain ⟨storedBefore, _⟩ := account.stored isStored
  rcases account.parked_cases storedBefore isParked with held | already
  · refine ⟨⟨outcome.parked, outcome.allMoved, daemon.nextPark⟩, ?_, held⟩
    dsimp only
    rw [if_neg (List.ne_nil_of_mem held)]
    simp
  · obtain ⟨watch, member, isHeld⟩ := watched key runtime storedBefore already
    refine ⟨watch, ?_, isHeld⟩
    dsimp only
    split
    · exact member
    · simp only [List.mem_append] at member ⊢
      tauto

theorem mem_of_eraseIdx {Item : Type} {items : List Item} {index : Nat} {item other : Item}
    (isItem : items[index]? = some item) (member : other ∈ items) :
    other = item ∨ other ∈ items.eraseIdx index := by
  obtain ⟨inside, rfl⟩ := List.getElem?_eq_some_iff.mp isItem
  have perm := List.getElem_cons_eraseIdx_perm inside
  exact List.mem_cons.mp (perm.mem_iff.mpr member)

theorem Watched.settles {daemon : Daemon} (watched : Watched daemon)
    (running : daemon.exited = none) (index : Nat) (survived : Bool) :
    Watched (daemon.settles index survived) := by
  rcases settles_spec daemon index survived with same | ⟨watch, isWatch, ⟨_, died⟩ | ⟨_, left⟩ |
    ⟨_, _, exits⟩⟩
  · rw [same]
    exact watched
  · rw [died]
    intro key runtime isStored isParked
    obtain ⟨stillParked, notWoken⟩ := Finset.mem_sdiff.mp isParked
    obtain ⟨other, member, isHeld⟩ := watched key runtime isStored stillParked
    refine ⟨other, ?_, isHeld⟩
    simp only [List.mem_append] at member ⊢
    rcases member with (isWatching | isSettled) | isExited
    · rcases mem_of_eraseIdx isWatch isWatching with rfl | stays
      · exact absurd (List.mem_toFinset.mpr isHeld) notWoken
      · exact .inl (.inl stays)
    · exact .inl (.inr isSettled)
    · exact .inr isExited
  · rw [left]
    intro key runtime isStored isParked
    obtain ⟨other, member, isHeld⟩ := watched key runtime isStored isParked
    refine ⟨other, ?_, isHeld⟩
    simp only [List.mem_append, List.mem_cons] at member ⊢
    rcases member with (isWatching | isSettled) | isExited
    · exact .inl ((mem_of_eraseIdx isWatch isWatching).elim (fun same => .inr (.inl same)) .inl)
    · exact .inl (.inr (.inr isSettled))
    · exact .inr isExited
  · rw [exits]
    intro key runtime isStored isParked
    obtain ⟨other, member, isHeld⟩ := watched key runtime isStored isParked
    refine ⟨other, ?_, isHeld⟩
    simp only [List.mem_append, running, Option.toList_none, List.not_mem_nil, or_false,
      Option.toList_some, List.mem_singleton] at member ⊢
    rcases member with isWatching | isSettled
    · exact (mem_of_eraseIdx isWatch isWatching).elim .inr (fun stays => .inl (.inl stays))
    · exact .inl (.inr isSettled)

theorem Watched.step {daemon : Daemon} (watched : Watched daemon) (sound : Sound daemon)
    {action : Action} (spares : Spares daemon action) : Watched (step daemon action) := by
  unfold Retirement.step
  split
  · exact watched
  have running : daemon.exited = none := by simpa using ‹¬ daemon.exited.isSome = true›
  cases action with
  | ensures key =>
      change Watched (daemon.ensureSession key)
      unfold Daemon.ensureSession
      split
      · exact watched
      · exact watched.seats sound key
  | replaces key => exact watched.seats sound key
  | removes key => exact watched.thins (thins_removeSession _ key) fun _ => id
  | renames source target => exact watched.thins (thins_renameSession _ source target) fun _ => id
  | childExits key => exact watched.thins (thins_childExits _ key) fun _ => id
  | shutsDownAll => exact watched.thins (thins_shutdownAll _) fun _ => id
  | sweeps surroundings attempts => exact watched.sweeps sound surroundings attempts
  | settles index survived => exact watched.settles running index survived
  | governorParks key =>
      have held := spares.resolve_left (by simp [running])
      exact watched.parkReader rfl (fun _ => id) held
  | tearsDownRefused key =>
      have held := spares.resolve_left (by simp [running])
      change Watched (daemon.teardownRefusedRemoteRuntime key)
      rw [teardown_eq]
      split
      · next live =>
          refine watched.parkReader rfl (fun _ => id) fun runtime isStored => ?_
          apply held runtime isStored
          simpa [Terminals.hasSession, isStored] using live
      · exact watched

/-- A reader that is parked where no handover holds its session is not covered afterwards. -/
theorem not_watched_governorParkReader {daemon : Daemon} {key : Key} {runtime : Runtime}
    (isStored : daemon.terminals.sessions.get? key = some runtime)
    (bare : ¬ daemon.Covers runtime.park) : ¬ Watched (daemon.governorParkReader key).1 := by
  intro watched
  refine bare (watched key runtime ?_ ?_)
  · simp [Daemon.governorParkReader, Terminals.parkReader, isStored]
  · simp [Daemon.governorParkReader, Terminals.parkReader, isStored]

theorem not_watched_step {daemon : Daemon} {action : Action} (missed : ¬ Spares daemon action) :
    ¬ Watched (step daemon action) := by
  cases action with
  | governorParks key =>
      obtain ⟨running, bare⟩ := not_or.mp missed
      obtain ⟨runtime, isBare⟩ := not_forall.mp bare
      obtain ⟨isStored, notCovered⟩ := Classical.not_imp.mp isBare
      unfold step
      rw [if_neg running]
      exact not_watched_governorParkReader isStored notCovered
  | tearsDownRefused key =>
      obtain ⟨running, bare⟩ := not_or.mp missed
      obtain ⟨runtime, isBare⟩ := not_forall.mp bare
      obtain ⟨isStored, notHeld⟩ := Classical.not_imp.mp isBare
      obtain ⟨live, notCovered⟩ := Classical.not_imp.mp notHeld
      unfold step
      rw [if_neg running]
      change ¬ Watched (daemon.teardownRefusedRemoteRuntime key)
      rw [teardown_eq, if_pos (by simpa [Terminals.hasSession, isStored] using live)]
      exact not_watched_governorParkReader isStored notCovered
  | _ => exact absurd trivial missed

/-- What a watch that may let the process exit still vouches for. -/
def Vouches (daemon : Daemon) (watch : Watch) : Prop :=
  watch.mark ≤ daemon.nextPark ∧
    ∀ key runtime, daemon.terminals.sessions.get? key = some runtime → runtime.running = true →
      runtime.park ∈ watch.parked ∨ watch.mark ≤ runtime.park

structure Vouched (daemon : Daemon) : Prop where
  sound : Sound daemon
  watching : ∀ watch ∈ daemon.watches, watch.allMoved = true → Vouches daemon watch
  exited : ∀ watch, daemon.exited = some watch → watch.allMoved = true ∧ Vouches daemon watch

theorem Vouches.thins {before after : Daemon} {watch : Watch} (vouches : Vouches before watch)
    (thins : Thins before.terminals after.terminals) (nextPark : before.nextPark ≤ after.nextPark) :
    Vouches after watch := by
  refine ⟨vouches.1.trans nextPark, fun key runtime isStored running => ?_⟩
  obtain ⟨other, earlier, otherStored, samePark, ran⟩ := thins.stored key runtime isStored
  rw [← samePark]
  exact vouches.2 other earlier otherStored (ran running)

theorem Vouches.seats {daemon : Daemon} {watch : Watch} (vouches : Vouches daemon watch)
    (key : Key) : Vouches (daemon.seats key) watch := by
  refine ⟨Nat.le_succ_of_le vouches.1, fun other runtime isStored running => ?_⟩
  change (daemon.terminals.sessions.insert key _).get? other = _ at isStored
  rw [OrderedMap.get?_insert] at isStored
  split at isStored
  · obtain rfl := Option.some.inj isStored
    exact .inr vouches.1
  · exact vouches.2 other runtime isStored running

/-- A step that starts and ends no watch. -/
theorem Vouched.keeps {before after : Daemon} (vouched : Vouched before) (sound : Sound after)
    (watches : after.watches = before.watches) (exited : after.exited = before.exited)
    (vouches : ∀ watch, Vouches before watch → Vouches after watch) : Vouched after where
  sound := sound
  watching := by
    rw [watches]
    exact fun watch member allMoved => vouches watch (vouched.watching watch member allMoved)
  exited := by
    rw [exited]
    exact fun watch isExit => (vouched.exited watch isExit).imp_right (vouches watch)

theorem Vouches.parkReader {daemon : Daemon} {watch : Watch} (vouches : Vouches daemon watch)
    (key : Key) : Vouches (daemon.governorParkReader key).1 watch := by
  refine ⟨vouches.1, fun other runtime isStored running => ?_⟩
  have same : (daemon.terminals.parkReader key).1.sessions = daemon.terminals.sessions := by
    unfold Terminals.parkReader
    split <;> rfl
  change (daemon.terminals.parkReader key).1.sessions.get? other = some runtime at isStored
  rw [same] at isStored
  exact vouches.2 other runtime isStored running

theorem Vouched.sweeps {daemon : Daemon} (vouched : Vouched daemon) (surroundings : Surroundings)
    (attempts : List Attempt) : Vouched (daemon.sweeps surroundings attempts) := by
  have stillSound := vouched.sound.sweeps surroundings attempts
  rcases sweeps_spec vouched.sound surroundings attempts with same |
    ⟨after, outcome, rest, segments, account, isAfter⟩
  · rw [same]
    exact vouched
  rw [isAfter] at stillSound ⊢
  have vouches {watch : Watch} (vouching : Vouches daemon watch) (watches : List Watch) :
      Vouches { daemon with terminals := after, watches } watch :=
    ⟨vouching.1, fun key runtime isStored => vouching.2 key runtime (account.stored isStored).1⟩
  refine ⟨stillSound, fun watch member allMoved => ?_, fun watch isExit => ?_⟩
  · have cases : watch ∈ daemon.watches ∨
        watch = ⟨outcome.parked, outcome.allMoved, daemon.nextPark⟩ := by
      dsimp only at member
      split at member
      · exact .inl member
      · simpa using member
    rcases cases with earlier | rfl
    · exact vouches (vouched.watching watch earlier allMoved) _
    · exact ⟨Nat.le_refl _, fun key runtime isStored running =>
        .inl (account.all_held allMoved isStored running)⟩
  · exact (vouched.exited watch isExit).imp_right fun vouching => vouches vouching _

theorem Vouched.settles {daemon : Daemon} (vouched : Vouched daemon) (index : Nat)
    (survived : Bool) : Vouched (daemon.settles index survived) := by
  have stillSound := vouched.sound.settles index survived
  have remaining {watch : Watch} (member : watch ∈ daemon.watches.eraseIdx index)
      (allMoved : watch.allMoved = true) : Vouches daemon watch :=
    vouched.watching watch (List.eraseIdx_subset member) allMoved
  rcases settles_spec daemon index survived with same | ⟨watch, isWatch, ⟨_, died⟩ | ⟨_, left⟩ |
    ⟨_, allMoved, exits⟩⟩
  · rw [same]
    exact vouched
  · rw [died] at stillSound ⊢
    exact ⟨stillSound, fun other member allMoved => remaining member allMoved, vouched.exited⟩
  · rw [left] at stillSound ⊢
    exact ⟨stillSound, fun other member allMoved => remaining member allMoved, vouched.exited⟩
  · rw [exits] at stillSound ⊢
    refine ⟨stillSound, fun other member allMoved => remaining member allMoved, ?_⟩
    intro other isExit
    obtain rfl := Option.some.inj isExit
    exact ⟨allMoved, vouched.watching watch (List.mem_of_getElem? isWatch) allMoved⟩

theorem Vouched.step {daemon : Daemon} (vouched : Vouched daemon) (action : Action) :
    Vouched (step daemon action) := by
  have stillSound := vouched.sound.step action
  unfold Retirement.step at stillSound ⊢
  split
  · exact vouched
  next running =>
  rw [if_neg running] at stillSound
  cases action with
  | ensures key =>
      change Vouched (daemon.ensureSession key)
      change Sound (daemon.ensureSession key) at stillSound
      unfold Daemon.ensureSession at stillSound ⊢
      split
      · exact vouched
      · next vacant =>
          rw [if_neg vacant] at stillSound
          exact vouched.keeps stillSound rfl rfl fun _ vouches => vouches.seats key
  | replaces key => exact vouched.keeps stillSound rfl rfl fun _ vouches => vouches.seats key
  | removes key =>
      exact vouched.keeps stillSound rfl rfl fun _ vouches =>
        vouches.thins (thins_removeSession _ key) (Nat.le_refl _)
  | renames source target =>
      exact vouched.keeps stillSound rfl rfl fun _ vouches =>
        vouches.thins (thins_renameSession _ source target) (Nat.le_refl _)
  | childExits key =>
      exact vouched.keeps stillSound rfl rfl fun _ vouches =>
        vouches.thins (thins_childExits _ key) (Nat.le_refl _)
  | shutsDownAll =>
      exact vouched.keeps stillSound rfl rfl fun _ vouches =>
        vouches.thins (thins_shutdownAll _) (Nat.le_refl _)
  | sweeps surroundings attempts => exact vouched.sweeps surroundings attempts
  | settles index survived => exact vouched.settles index survived
  | governorParks key =>
      exact vouched.keeps stillSound rfl rfl fun _ vouches => vouches.parkReader key
  | tearsDownRefused key =>
      change Vouched (daemon.teardownRefusedRemoteRuntime key)
      change Sound (daemon.teardownRefusedRemoteRuntime key) at stillSound
      rw [teardown_eq] at stillSound ⊢
      split
      · next live =>
          rw [if_pos live] at stillSound
          exact vouched.keeps stillSound rfl rfl fun _ vouches => vouches.parkReader key
      · exact vouched

/-- Whatever happens before and in between, the process exits only after a sweep that left no live
session untaken and a successor that outlived its window, and of the live sessions it then still
holds each one was acknowledged in that very sweep, or was opened only after it. -/
theorem exit_leaves_only_later_sessions (actions : List Action) (watch : Watch)
    (exited : (run step initialDaemon actions).exited = some watch) :
    watch.allMoved = true ∧ Vouches (run step initialDaemon actions) watch := by
  have initially : Vouched initialDaemon := by
    refine ⟨sound_initial, fun watch member => ?_, fun watch isExit => ?_⟩
    · cases member
    · cases isExit
  have vouched : Vouched (run step initialDaemon actions) :=
    run_invariant (fun _ action vouched => vouched.step action) initially actions
  exact vouched.exited watch exited

theorem exit_of_one_session : (⟨[0], true, 1⟩ : Watch).allMoved = true ∧
    Vouches (run step initialDaemon
      [.ensures "a".toList, .sweeps quiet [adopted], .settles 0 true]) ⟨[0], true, 1⟩ :=
  exit_leaves_only_later_sessions _ _ rfl

end Yggterm.Retirement
