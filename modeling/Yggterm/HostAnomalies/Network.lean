import Yggterm.HostAnomalies.Plane

/-!
# Anomalies between hosts

Every daemon asks the first few of its remote machines for their status now and then
(`spawn_peer_anomaly_relay` of `yggterm-server/src/daemon.rs`) and relays what it reads.  Any number
of processes of a host work on its file, and nothing keeps a process from writing what it loaded
before another wrote.
-/

namespace Yggterm.HostAnomalies

open Runs

def peerAnomalyRelayMaxMachinesPerTick : Nat := 4

/-- How many notices a status carries at most. -/
def statusCap : Nat := 20

/-- A status that came back: who asked, under which key the peer is known, and what is left of the
notices. -/
structure Payload (Host : Type) where
  host : Host
  machineKey : List Char
  notices : List AnomalyNotice

/-- A file is given by its lines; what is no notice is skipped.  `writes` are the processes that
have decided what to write and have not written it. -/
structure Network (Host : Type) where
  files : Host → List (Option AnomalyNotice)
  writes : List (Host × List AnomalyNotice)
  payloads : List (Payload Host)
  /-- Every notice a detector made, with its host. -/
  origins : List (Host × AnomalyNotice)

inductive Action (Host : Type) where
  | report (host : Host) (sighting : Report)
  | acknowledge (host : Host) (ids : List (List Char))
  | ask (host : Host) (slot now : Nat)
  | relay (index : Nat)
  | save (index : Nat)
  deriving DecidableEq

namespace Network

variable {Host : Type}

/-- `load_all` -/
def loadAll (network : Network Host) (host : Host) : List AnomalyNotice :=
  (network.files host).filterMap id

/-- The first half of an operation: it loads the file and decides what to write. -/
def begins (network : Network Host) (host : Host) (operation : Operation) : Network Host :=
  match operation.written (network.loadAll host) with
  | none => network
  | some records => { network with writes := network.writes ++ [(host, records)] }

/-- The machines a relay tick gets to. -/
def relayMachines (machines : List (List Char × Host)) : List (List Char × Host) :=
  machines.take peerAnomalyRelayMaxMachinesPerTick

variable (machines : Host → List (List Char × Host))

def step [DecidableEq Host] (network : Network Host) : Action Host → Network Host
  | .report host sighting =>
      match (Operation.report sighting).written (network.loadAll host) with
      | none => network
      | some records =>
          { network with
            writes := network.writes ++ [(host, records)]
            origins := network.origins ++ [(host, sighting.notice)] }
  | .acknowledge host ids => network.begins host (.acknowledge ids)
  | .ask host slot now =>
      match (relayMachines (machines host))[slot]? with
      | none => network
      | some (machineKey, peer) =>
          let anomalies := recentAnomalies now statusCap (network.loadAll peer)
          { network with
            payloads := network.payloads ++
              [{ host, machineKey, notices := anomaliesFromStatus anomalies }] }
  | .relay index =>
      match network.payloads[index]? with
      | none => network
      | some payload =>
          match payload.notices with
          | [] => network
          | notice :: rest =>
              { network with
                payloads := network.payloads.set index { payload with notices := rest } }.begins
                payload.host (.relay payload.machineKey notice)
  | .save index =>
      match network.writes[index]? with
      | none => network
      | some (host, records) =>
          { network with
            files := Function.update network.files host (records.map some)
            writes := network.writes.eraseIdx index }

def empty : Network Host where
  files := fun _ => []
  writes := []
  payloads := []
  origins := []

/-! ## What every file keeps -/

/-- A record is a notice of its own host, or one hop away from a notice of a machine that a relay
tick gets to; only the mark that it was seen is its own. -/
inductive Traced (network : Network Host) (host : Host) (record : AnomalyNotice) : Prop
  | reported (origin : AnomalyNotice) (made : (host, origin) ∈ network.origins)
      (same : record = { origin with seen := record.seen })
  | relayed (machineKey : List Char) (peer : Host) (origin : AnomalyNotice)
      (asked : (machineKey, peer) ∈ relayMachines (machines host))
      (made : (peer, origin) ∈ network.origins)
      (same : record = { HostAnomalies.relayed machineKey origin with seen := record.seen })

/-- The later of two unread records of a kind was not reported within ten minutes. -/
def Spaced (earlier later : AnomalyNotice) : Prop :=
  later.relayedFrom = none → earlier.kind = later.kind → earlier.seen = false →
    later.seen = false → earlier.firstSeenMs + anomalyDedupeMs ≤ later.firstSeenMs

/-- No record before a relay has its id. -/
def RelayedOnce (earlier later : AnomalyNotice) : Prop :=
  later.relayedFrom ≠ none → earlier.id ≠ later.id

structure Good (network : Network Host) (host : Host) (records : List AnomalyNotice) : Prop where
  short : records.length ≤ anomalyMaxRecords
  traced : ∀ record ∈ records, Traced machines network host record
  once : records.Pairwise RelayedOnce
  spaced : records.Pairwise Spaced

/-- What a detector makes. -/
structure IsOrigin (notice : AnomalyNotice) : Prop where
  isLocal : notice.relayedFrom = none
  unread : notice.seen = false
  named : notice.id = notice.kind ++ ':' :: Nat.toDigits 10 notice.firstSeenMs
  short : (Utf8.encode notice.detail).length ≤ 403

structure Sound (network : Network Host) : Prop where
  files : ∀ host, Good machines network host (network.loadAll host)
  writes : ∀ write ∈ network.writes, Good machines network write.1 write.2
  payloads : ∀ payload ∈ network.payloads, ∃ peer,
    (payload.machineKey, peer) ∈ relayMachines (machines payload.host) ∧
      ∀ notice ∈ payload.notices, (peer, notice) ∈ network.origins
  origins : ∀ origin ∈ network.origins, IsOrigin origin.2

variable {machines} {network : Network Host} {host : Host} {records : List AnomalyNotice}

theorem isOrigin_notice (sighting : Report) : IsOrigin sighting.notice :=
  ⟨rfl, rfl, rfl, length_encode_shortenDetail sighting.detail⟩

theorem Traced.mono {record : AnomalyNotice} {later : Network Host}
    (traced : Traced machines network host record)
    (grown : network.origins ⊆ later.origins) : Traced machines later host record := by
  cases traced with
  | reported origin made same => exact .reported origin (grown made) same
  | relayed machineKey peer origin asked made same =>
      exact .relayed machineKey peer origin asked (grown made) same

theorem Good.mono {later : Network Host} (good : Good machines network host records)
    (grown : network.origins ⊆ later.origins) : Good machines later host records :=
  ⟨good.short, fun record member => (good.traced record member).mono grown, good.once, good.spaced⟩

/-- Adding one record and dropping what is too much. -/
theorem Good.capped_concat {last : AnomalyNotice} (good : Good machines network host records)
    (traced : Traced machines network host last)
    (once : ∀ record ∈ records, RelayedOnce record last)
    (spaced : ∀ record ∈ records, Spaced record last) :
    Good machines network host (capped (records ++ [last])) := by
  have kept := capped_sublist (records ++ [last])
  have appended : ∀ {relation : AnomalyNotice → AnomalyNotice → Prop}, records.Pairwise relation →
      (∀ record ∈ records, relation record last) → (records ++ [last]).Pairwise relation := by
    intro relation pairwise before
    refine List.pairwise_append.mpr ⟨pairwise, List.pairwise_singleton _ _, ?_⟩
    intro record member other isLast
    rw [List.mem_singleton.mp isLast]
    exact before record member
  refine ⟨length_capped_le _, ?_, (appended good.once once).sublist kept,
    (appended good.spaced spaced).sublist kept⟩
  intro record member
  rcases List.mem_append.mp (kept.subset member) with old | new
  · exact good.traced record old
  · rw [List.mem_singleton.mp new]
    exact traced

theorem Traced.acknowledge {record : AnomalyNotice}
    (traced : Traced machines network host record) (ids : List (List Char)) :
    Traced machines network host (acknowledge ids record) := by
  unfold HostAnomalies.acknowledge
  split_ifs
  · cases traced with
    | reported origin made same => exact .reported origin made (by rw [same])
    | relayed machineKey peer origin asked made same =>
        exact .relayed machineKey peer origin asked made (by rw [same])
  · exact traced

/-- Marking records as seen changes nothing else, and makes no record unread. -/
theorem acknowledge_eq (ids : List (List Char)) (record : AnomalyNotice) :
    ∃ seen, acknowledge ids record = { record with seen } ∧
      (seen = false → record.seen = false) := by
  unfold HostAnomalies.acknowledge
  split_ifs
  · exact ⟨true, rfl, fun unread => by cases unread⟩
  · exact ⟨record.seen, rfl, id⟩

theorem Good.acknowledge (good : Good machines network host records) (ids : List (List Char)) :
    Good machines network host (records.map (acknowledge ids)) := by
  refine ⟨by rw [List.length_map]; exact good.short, ?_, ?_, ?_⟩
  · intro record member
    obtain ⟨before, beforeMember, rfl⟩ := List.mem_map.mp member
    exact (good.traced before beforeMember).acknowledge ids
  · refine List.pairwise_map.mpr (good.once.imp fun {earlier later} once => ?_)
    obtain ⟨_, isEarlier, _⟩ := acknowledge_eq ids earlier
    obtain ⟨_, isLater, _⟩ := acknowledge_eq ids later
    rw [isEarlier, isLater]
    exact once
  · refine List.pairwise_map.mpr (good.spaced.imp fun {earlier later} spaced => ?_)
    obtain ⟨_, isEarlier, earlierUnread⟩ := acknowledge_eq ids earlier
    obtain ⟨_, isLater, laterUnread⟩ := acknowledge_eq ids later
    rw [isEarlier, isLater]
    intro isLocal sameKind firstUnread secondUnread
    exact spaced isLocal sameKind (earlierUnread firstUnread) (laterUnread secondUnread)

/-! ## One step -/

theorem Good.report {sighting : Report} {next : List AnomalyNotice}
    (good : Good machines network host records)
    (written : (Operation.report sighting).written records = some next) {later : Network Host}
    (grown : network.origins ⊆ later.origins) (made : (host, sighting.notice) ∈ later.origins) :
    Good machines later host next := by
  obtain writes := Operation.writes_of_written written
  cases writes with
  | report _ fresh =>
      refine (good.mono grown).capped_concat (.reported sighting.notice made rfl) ?_ ?_
      · exact fun record member isRelay => absurd rfl isRelay
      · exact fun record member isLocal sameKind unread _ => fresh record member sameKind unread

theorem Good.relay {machineKey : List Char} {peer : Host} {notice : AnomalyNotice}
    {next : List AnomalyNotice} (good : Good machines network host records)
    (written : (Operation.relay machineKey notice).written records = some next)
    (asked : (machineKey, peer) ∈ relayMachines (machines host))
    (made : (peer, notice) ∈ network.origins) : Good machines network host next := by
  obtain writes := Operation.writes_of_written written
  cases writes with
  | relay _ _ fresh =>
      refine good.capped_concat (.relayed machineKey peer notice asked made rfl) ?_ ?_
      · exact fun record member _ => fresh record member
      · exact fun record member isLocal => by cases isLocal

theorem Good.acknowledged {ids : List (List Char)} {next : List AnomalyNotice}
    (good : Good machines network host records)
    (written : (Operation.acknowledge ids).written records = some next) :
    Good machines network host next := by
  obtain writes := Operation.writes_of_written written
  cases writes with
  | acknowledge => exact good.acknowledge ids

/-- What a peer's status passes on are notices of its own detectors. -/
theorem mem_origins_of_mem_status (sound : Sound machines network) (peer : Host) (now : Nat)
    {notice : AnomalyNotice}
    (member : notice ∈ anomaliesFromStatus
      (recentAnomalies now statusCap (network.loadAll peer))) :
    (peer, notice) ∈ network.origins := by
  obtain ⟨inStatus, passes⟩ := List.mem_filter.mp member
  obtain ⟨unread, isLocal⟩ := Bool.and_eq_true_iff.mp passes
  have inFile := (List.mem_filter.mp (List.mem_reverse.mp (List.mem_of_mem_take inStatus))).1
  cases (sound.files peer).traced notice inFile with
  | reported origin made same =>
      have isUnread := (sound.origins _ made).unread
      have sameSeen : notice.seen = origin.seen := by
        rw [isUnread]
        simpa using unread
      rw [same, sameSeen]
      exact made
  | relayed machineKey peer origin asked made same =>
      rw [same] at isLocal
      cases isLocal

theorem Sound.push {write : Host × List AnomalyNotice} (sound : Sound machines network)
    (good : Good machines network write.1 write.2) :
    Sound machines { network with writes := network.writes ++ [write] } := by
  refine ⟨fun host => (sound.files host).mono fun _ made => made, ?_, sound.payloads, sound.origins⟩
  intro other member
  rcases List.mem_append.mp member with old | new
  · exact (sound.writes other old).mono fun _ made => made
  · rw [List.mem_singleton.mp new]
    exact good.mono fun _ made => made

theorem Sound.begins {operation : Operation} (sound : Sound machines network)
    (good : ∀ next, operation.written (network.loadAll host) = some next →
      Good machines network host next) : Sound machines (network.begins host operation) := by
  unfold Network.begins
  split
  · exact sound
  · next records written => exact sound.push (good records written)

theorem loadAll_save [DecidableEq Host] (network : Network Host) (target host : Host)
    (records : List AnomalyNotice) (writes : List (Host × List AnomalyNotice)) :
    loadAll
        { network with
          files := Function.update network.files target (records.map some)
          writes }
        host = if host = target then records else network.loadAll host := by
  unfold loadAll
  dsimp only
  split_ifs with same
  · rw [same, Function.update_self, List.filterMap_map]
    exact List.filterMap_some
  · rw [Function.update_of_ne same]

theorem Sound.save [DecidableEq Host] (sound : Sound machines network) (index : Nat) :
    Sound machines (network.step machines (.save index)) := by
  unfold step
  dsimp only
  split
  · exact sound
  · next target records found =>
      have good := sound.writes _ (List.mem_of_getElem? found)
      refine ⟨fun host => ?_, ?_, sound.payloads, sound.origins⟩
      · rw [loadAll_save]
        split_ifs with same
        · rw [same]
          exact good.mono fun _ made => made
        · exact (sound.files host).mono fun _ made => made
      · intro write member
        exact (sound.writes write (List.mem_of_mem_eraseIdx member)).mono fun _ made => made

theorem Sound.relay [DecidableEq Host] (sound : Sound machines network) (index : Nat) :
    Sound machines (network.step machines (.relay index)) := by
  unfold step
  dsimp only
  split
  · exact sound
  · next payload found =>
      obtain ⟨peer, asked, made⟩ := sound.payloads payload (List.mem_of_getElem? found)
      split
      · exact sound
      · next notice rest isNext =>
          rw [isNext] at made
          have shorter : Sound machines
              { network with
                payloads := network.payloads.set index { payload with notices := rest } } := by
            refine ⟨fun host => (sound.files host).mono fun _ made => made,
              fun write member => (sound.writes write member).mono fun _ made => made, ?_,
              sound.origins⟩
            intro other member
            rcases List.mem_or_eq_of_mem_set member with old | rfl
            · exact sound.payloads other old
            · exact ⟨peer, asked, fun notice member => made notice (List.mem_cons_of_mem _ member)⟩
          refine shorter.begins fun next written => ?_
          exact (shorter.files payload.host).relay written asked (made notice List.mem_cons_self)

theorem Sound.step [DecidableEq Host] (sound : Sound machines network) (action : Action Host) :
    Sound machines (network.step machines action) := by
  cases action with
  | report host sighting =>
      unfold Network.step
      dsimp only
      split
      · exact sound
      · next records written =>
          have grown : network.origins ⊆ network.origins ++ [(host, sighting.notice)] :=
            List.subset_append_left _ _
          have made : (host, sighting.notice) ∈ network.origins ++ [(host, sighting.notice)] :=
            List.mem_append_right _ (List.mem_singleton_self _)
          refine ⟨fun other => (sound.files other).mono grown, ?_, ?_, ?_⟩
          · intro write member
            rcases List.mem_append.mp member with old | new
            · exact (sound.writes write old).mono grown
            · rw [List.mem_singleton.mp new]
              exact (sound.files host).report written grown made
          · intro payload member
            obtain ⟨peer, asked, isMade⟩ := sound.payloads payload member
            exact ⟨peer, asked, fun notice inPayload => grown (isMade notice inPayload)⟩
          · exact List.forall_mem_append.mpr
              ⟨sound.origins, List.forall_mem_singleton.mpr (isOrigin_notice sighting)⟩
  | acknowledge host ids =>
      exact sound.begins fun next written => (sound.files host).acknowledged written
  | ask host slot now =>
      unfold Network.step
      dsimp only
      split
      · exact sound
      · next machineKey peer isNext =>
          refine ⟨fun other => (sound.files other).mono fun _ made => made,
            fun write member => (sound.writes write member).mono fun _ made => made, ?_,
            sound.origins⟩
          refine List.forall_mem_append.mpr ⟨sound.payloads, List.forall_mem_singleton.mpr ?_⟩
          exact ⟨peer, List.mem_of_getElem? isNext, fun notice member =>
            mem_origins_of_mem_status sound peer now member⟩
  | relay index => exact sound.relay index
  | save index => exact sound.save index

/-- However processes and hosts interleave, lost updates included. -/
theorem every_file_is_sound [DecidableEq Host] (machines : Host → List (List Char × Host))
    (actions : List (Action Host)) :
    Sound machines (run (Network.step machines) empty actions) := by
  have nothing : ∀ host : Host, Good machines empty host [] := fun host =>
    ⟨Nat.zero_le _, List.forall_mem_nil _, List.Pairwise.nil, List.Pairwise.nil⟩
  have initially : Sound machines (empty : Network Host) :=
    ⟨nothing, List.forall_mem_nil _, List.forall_mem_nil _, List.forall_mem_nil _⟩
  have preserved : ∀ (network : Network Host) (action : Action Host), Sound machines network →
      Sound machines (Network.step machines network action) :=
    fun _ action sound => sound.step action
  exact run_invariant preserved initially actions

end Network

end Yggterm.HostAnomalies
