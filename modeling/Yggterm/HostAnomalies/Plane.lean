import Mathlib.Data.List.Basic
import Mathlib.Logic.Function.Iterate
import Yggterm.Library.ByteSlices
import Yggterm.Library.Runs

/-!
# The queue of host anomalies

`yggterm-server/src/host_anomaly.rs`: detectors report into a file of notices, the status carries
the unread ones to the GUI, which acknowledges them, and notices of other machines are relayed into
the same file.  Every operation loads the whole file and may write it back.
-/

namespace Yggterm.HostAnomalies

open Utf8

def anomalyDedupeMs : Nat := 10 * 60 * 1000

def anomalyStatusTtlMs : Nat := 24 * 60 * 60 * 1000

def anomalyMaxRecords : Nat := 200

structure AnomalyNotice where
  id : List Char
  kind : List Char
  severity : List Char
  title : List Char
  detail : List Char
  firstSeenMs : Nat
  seen : Bool
  relayedFrom : Option (List Char)
  deriving DecidableEq

/-! ## The operations -/

/-- The text up to the last character boundary that is not behind `cut`. -/
def cutBefore (text : List Char) : Nat → List Char
  | 0 => []
  | cut + 1 =>
      match splitBytes (cut + 1) text with
      | some (front, _) => front
      | none => cutBefore text cut

def shortenDetail (detail : List Char) : List Char :=
  if (encode detail).length ≤ 400 then detail else cutBefore detail 400 ++ ['…']

/-- The oldest notice that was seen goes first, and without one the oldest. -/
def dropOldest (records : List AnomalyNotice) : List AnomalyNotice :=
  match records.findIdx? AnomalyNotice.seen with
  | some index => records.eraseIdx index
  | none => records.tail

/-- The cap: each turn of the loop drops one. -/
def capped (records : List AnomalyNotice) : List AnomalyNotice :=
  dropOldest^[records.length - anomalyMaxRecords] records

/-- An unread notice of the same kind from less than ten minutes ago. -/
def AnomalyNotice.standing (kind : List Char) (now : Nat) (record : AnomalyNotice) : Bool :=
  record.kind = kind && !record.seen && decide (now - record.firstSeenMs < anomalyDedupeMs)

/-- What a detector reports. -/
structure Report where
  now : Nat
  kind : List Char
  severity : List Char
  title : List Char
  detail : List Char
  deriving DecidableEq

def Report.notice (report : Report) : AnomalyNotice where
  id := report.kind ++ ':' :: Nat.toDigits 10 report.now
  kind := report.kind
  severity := report.severity
  title := report.title
  detail := shortenDetail report.detail
  firstSeenMs := report.now
  seen := false
  relayedFrom := none

/-- What is written, if anything is. -/
def reportAnomaly (report : Report) (records : List AnomalyNotice) : Option (List AnomalyNotice) :=
  if records.any (AnomalyNotice.standing report.kind report.now) then none
  else some (capped (records ++ [report.notice]))

/-- The unread notices for the status, newest first. -/
def recentAnomalies (now cap : Nat) (records : List AnomalyNotice) : List AnomalyNotice :=
  ((records.filter fun record =>
    !record.seen && decide (now - record.firstSeenMs ≤ anomalyStatusTtlMs)).reverse).take cap

def acknowledge (ids : List (List Char)) (record : AnomalyNotice) : AnomalyNotice :=
  if ids.contains record.id then { record with seen := true } else record

/-- How many records flipped, and what is written. -/
def markAnomaliesSeen (ids : List (List Char)) (records : List AnomalyNotice) :
    Nat × Option (List AnomalyNotice) :=
  if ids = [] then (0, none)
  else
    let flipped := records.countP fun record => !record.seen && ids.contains record.id
    (flipped, if 0 < flipped then some (records.map (acknowledge ids)) else none)

def relayed (machineKey : List Char) (notice : AnomalyNotice) : AnomalyNotice :=
  { notice with
    id := machineKey ++ '/' :: notice.id
    seen := false
    relayedFrom := some machineKey }

def relayPeerAnomaly (machineKey : List Char) (notice : AnomalyNotice)
    (records : List AnomalyNotice) : Option (List AnomalyNotice) :=
  if records.any fun record => record.id = (relayed machineKey notice).id then none
  else some (capped (records ++ [relayed machineKey notice]))

/-- Of a peer's status only unread notices that the peer did not itself relay. -/
def anomaliesFromStatus (anomalies : List AnomalyNotice) : List AnomalyNotice :=
  anomalies.filter fun notice => !notice.seen && notice.relayedFrom.isNone

/-! ## Dropping -/

theorem dropOldest_sublist (records : List AnomalyNotice) :
    (dropOldest records).Sublist records := by
  unfold dropOldest
  split
  · exact List.eraseIdx_sublist records _
  · exact List.tail_sublist records

theorem length_dropOldest (records : List AnomalyNotice) :
    (dropOldest records).length = records.length - 1 := by
  unfold dropOldest
  split
  · next index found =>
      have within := (List.findIdx?_eq_some_iff_getElem.mp found).1
      rw [List.length_eraseIdx_of_lt within]
  · exact List.length_tail

theorem iterate_dropOldest_sublist (count : Nat) (records : List AnomalyNotice) :
    (dropOldest^[count] records).Sublist records := by
  induction count generalizing records with
  | zero => exact List.Sublist.refl records
  | succ count inductionHypothesis =>
      exact (inductionHypothesis (dropOldest records)).trans (dropOldest_sublist records)

theorem length_iterate_dropOldest (count : Nat) (records : List AnomalyNotice) :
    (dropOldest^[count] records).length = records.length - count := by
  induction count generalizing records with
  | zero => rfl
  | succ count inductionHypothesis =>
      rw [Function.iterate_succ_apply, inductionHypothesis, length_dropOldest]
      omega

theorem capped_sublist (records : List AnomalyNotice) : (capped records).Sublist records :=
  iterate_dropOldest_sublist _ records

theorem length_capped_le (records : List AnomalyNotice) :
    (capped records).length ≤ anomalyMaxRecords := by
  rw [capped, length_iterate_dropOldest]
  omega

/-- An unread notice is dropped only where no notice was seen. -/
theorem mem_dropOldest_of_seen {records : List AnomalyNotice} {notice seen : AnomalyNotice}
    (member : notice ∈ records) (unread : notice.seen = false) (seenMember : seen ∈ records)
    (isSeen : seen.seen = true) : notice ∈ dropOldest records := by
  unfold dropOldest
  split
  · next index found =>
      obtain ⟨within, stopsHere, _⟩ := List.findIdx?_eq_some_iff_getElem.mp found
      obtain ⟨place, isPlace, rfl⟩ := List.mem_iff_getElem.mp member
      refine List.mem_eraseIdx_iff_getElem.mpr ⟨place, isPlace, ?_, rfl⟩
      rintro rfl
      rw [unread] at stopsHere
      cases stopsHere
  · next none =>
      have unseen := List.findIdx?_eq_none_iff.mp none seen seenMember
      rw [isSeen] at unseen
      cases unseen

/-! ## Details stay short -/

theorem length_encode_cutBefore (text : List Char) (cut : Nat) :
    (encode (cutBefore text cut)).length ≤ cut := by
  induction cut with
  | zero => exact Nat.le_refl 0
  | succ cut inductionHypothesis =>
      unfold cutBefore
      split
      · next front rest split => exact Nat.le_of_eq (eq_append_of_splitBytes split).2
      · exact Nat.le_succ_of_le inductionHypothesis

theorem length_encode_shortenDetail (detail : List Char) :
    (encode (shortenDetail detail)).length ≤ 403 := by
  unfold shortenDetail
  split_ifs with short
  · omega
  · have cut := length_encode_cutBefore detail 400
    have ellipsis : (encode ['…']).length = 3 := by decide
    rw [encode_append, List.length_append, ellipsis]
    omega

/-! ## One operation after the other -/

inductive Operation where
  | report (sighting : Report)
  | acknowledge (ids : List (List Char))
  | relay (machineKey : List Char) (notice : AnomalyNotice)
  deriving DecidableEq

namespace Operation

/-- What the operation makes of what it loaded, if it writes. -/
def written : Operation → List AnomalyNotice → Option (List AnomalyNotice)
  | .report sighting, records => reportAnomaly sighting records
  | .acknowledge ids, records => (markAnomaliesSeen ids records).2
  | .relay machineKey notice, records => relayPeerAnomaly machineKey notice records

def apply (records : List AnomalyNotice) (operation : Operation) : List AnomalyNotice :=
  (operation.written records).getD records

/-- What an operation may write. -/
inductive Writes (records : List AnomalyNotice) : Operation → List AnomalyNotice → Prop
  | report (sighting : Report)
      (fresh : ∀ record ∈ records, record.kind = sighting.kind → record.seen = false →
        record.firstSeenMs + anomalyDedupeMs ≤ sighting.now) :
      Writes records (.report sighting) (capped (records ++ [sighting.notice]))
  | acknowledge (ids : List (List Char)) :
      Writes records (.acknowledge ids) (records.map (HostAnomalies.acknowledge ids))
  | relay (machineKey : List Char) (notice : AnomalyNotice)
      (fresh : ∀ record ∈ records, record.id ≠ (relayed machineKey notice).id) :
      Writes records (.relay machineKey notice) (capped (records ++ [relayed machineKey notice]))

theorem writes_of_written {operation : Operation} {records next : List AnomalyNotice}
    (written : operation.written records = some next) : Writes records operation next := by
  cases operation with
  | report sighting =>
      unfold Operation.written reportAnomaly at written
      dsimp only at written
      split_ifs at written with standing
      rw [← Option.some.inj written]
      refine .report sighting fun record member sameKind unread => ?_
      rw [List.any_eq_true] at standing
      by_contra recent
      refine standing ⟨record, member, ?_⟩
      have isRecent : sighting.now - record.firstSeenMs < anomalyDedupeMs := by
        unfold anomalyDedupeMs at recent ⊢
        omega
      simp [AnomalyNotice.standing, sameKind, unread, isRecent]
  | acknowledge ids =>
      unfold Operation.written markAnomaliesSeen at written
      dsimp only at written
      split_ifs at written
      rw [← Option.some.inj written]
      exact .acknowledge ids
  | relay machineKey notice =>
      unfold Operation.written relayPeerAnomaly at written
      dsimp only at written
      split_ifs at written with present
      rw [← Option.some.inj written]
      refine .relay machineKey notice fun record member same => present ?_
      exact List.any_eq_true.mpr ⟨record, member, decide_eq_true same⟩

/-- An operation writes nothing, or what it may write. -/
theorem apply_cases (records : List AnomalyNotice) (operation : Operation) :
    apply records operation = records ∨ Writes records operation (apply records operation) := by
  unfold apply
  cases written : operation.written records with
  | none => exact .inl rfl
  | some next => exact .inr (writes_of_written written)

theorem length_apply_le {records : List AnomalyNotice} (short : records.length ≤ anomalyMaxRecords)
    (operation : Operation) : (apply records operation).length ≤ anomalyMaxRecords := by
  rcases apply_cases records operation with same | writes
  · rwa [same]
  · generalize apply records operation = next at writes
    cases writes with
    | report => exact length_capped_le _
    | acknowledge => rwa [List.length_map]
    | relay => exact length_capped_le _

/-- The notice is not acknowledged, and where the file is full there is a notice that was seen. -/
def Leaves (notice : AnomalyNotice) (records : List AnomalyNotice) : Operation → Prop
  | .acknowledge ids => notice.id ∉ ids
  | _ => records.length < anomalyMaxRecords ∨ ∃ other ∈ records, other.seen = true

instance (notice : AnomalyNotice) (records : List AnomalyNotice) :
    (operation : Operation) → Decidable (Leaves notice records operation)
  | .acknowledge ids => decidable_of_iff (ids.contains notice.id = false) (by simp [Leaves])
  | .report _ | .relay _ _ => inferInstanceAs (Decidable (_ ∨ _))

theorem mem_capped_concat {records : List AnomalyNotice} {notice last : AnomalyNotice}
    (short : records.length ≤ anomalyMaxRecords) (member : notice ∈ records)
    (unread : notice.seen = false)
    (room : records.length < anomalyMaxRecords ∨ ∃ other ∈ records, other.seen = true) :
    notice ∈ capped (records ++ [last]) := by
  have stillMember : notice ∈ records ++ [last] := List.mem_append_left _ member
  unfold capped
  rw [List.length_append, List.length_singleton]
  by_cases hasRoom : records.length < anomalyMaxRecords
  · rw [Nat.sub_eq_zero_of_le hasRoom]
    exact stillMember
  · obtain ⟨other, otherMember, isSeen⟩ := room.resolve_left hasRoom
    rw [show records.length + 1 - anomalyMaxRecords = 1 by omega]
    exact mem_dropOldest_of_seen stillMember unread (List.mem_append_left _ otherMember) isSeen

theorem mem_apply {records : List AnomalyNotice} {notice : AnomalyNotice}
    (short : records.length ≤ anomalyMaxRecords) (member : notice ∈ records)
    (unread : notice.seen = false) {operation : Operation}
    (leaves : Leaves notice records operation) : notice ∈ apply records operation := by
  rcases apply_cases records operation with same | writes
  · rwa [same]
  · generalize apply records operation = next at writes
    cases writes with
    | report => exact mem_capped_concat short member unread leaves
    | acknowledge ids =>
        refine List.mem_map.mpr ⟨notice, member, ?_⟩
        rw [HostAnomalies.acknowledge, if_neg (mt List.contains_iff_mem.mp leaves)]
    | relay => exact mem_capped_concat short member unread leaves

/-- No notice that was neither acknowledged nor pushed out by unread ones is lost. -/
theorem unread_notice_stays (records : List AnomalyNotice)
    (short : records.length ≤ anomalyMaxRecords) (notice : AnomalyNotice)
    (member : notice ∈ records) (unread : notice.seen = false) (operations : List Operation)
    (leaves : Runs.Guarded apply (Leaves notice) records operations) :
    Runs.Always apply (fun records => notice ∈ records ∧ records.length ≤ anomalyMaxRecords)
      records operations := by
  refine Runs.always_of_guarded ?_ (fun _ holds => holds) ⟨member, short⟩ leaves
  rintro records operation ⟨member, short⟩ leaves
  exact ⟨mem_apply short member unread leaves, length_apply_le short operation⟩

/-- Another notice comes, is acknowledged, and comes again by way of a peer. -/
theorem unread_notice_stays_of_other_kinds :
    let growth : Report := { now := 5, kind := ['g'], severity := [], title := [], detail := [] }
    let high : Report := { now := 7, kind := ['h'], severity := [], title := [], detail := [] }
    let operations : List Operation :=
      [.report high, .acknowledge [high.notice.id], .relay ['m'] high.notice]
    (Runs.run apply [growth.notice] operations).length = 3 ∧
      Runs.Always apply
        (fun records => growth.notice ∈ records ∧ records.length ≤ anomalyMaxRecords)
        [growth.notice] operations :=
  ⟨by decide,
    unread_notice_stays _ (by decide) _ (by decide) rfl _ (by decide)⟩

/-! ## Acknowledged relays -/

def Present (id : List Char) (records : List AnomalyNotice) : Prop :=
  ∃ record ∈ records, record.id = id

instance (id : List Char) (records : List AnomalyNotice) : Decidable (Present id records) :=
  inferInstanceAs (Decidable (∃ record ∈ records, record.id = id))

/-- Every relay of that id was seen. -/
def RelaysSeen (id : List Char) (records : List AnomalyNotice) : Prop :=
  ∀ record ∈ records, record.id = id → record.relayedFrom ≠ none → record.seen = true

instance (id : List Char) (records : List AnomalyNotice) : Decidable (RelaysSeen id records) :=
  inferInstanceAs (Decidable (∀ record ∈ records, record.id = id → record.relayedFrom ≠ none →
    record.seen = true))

theorem relaysSeen_apply {id : List Char} {records : List AnomalyNotice}
    (relaysSeen : RelaysSeen id records) (present : Present id records) (operation : Operation) :
    RelaysSeen id (apply records operation) := by
  have appended : ∀ last : AnomalyNotice,
      (last.id = id → last.relayedFrom = none) → RelaysSeen id (capped (records ++ [last])) := by
    intro last isLocal record member sameId isRelay
    rcases List.mem_append.mp ((capped_sublist _).subset member) with old | new
    · exact relaysSeen record old sameId isRelay
    · obtain rfl := List.mem_singleton.mp new
      exact absurd (isLocal sameId) isRelay
  rcases apply_cases records operation with same | writes
  · rwa [same]
  · generalize apply records operation = next at writes
    cases writes with
    | report sighting => exact appended sighting.notice fun _ => rfl
    | acknowledge ids =>
        intro record member sameId isRelay
        obtain ⟨before, beforeMember, rfl⟩ := List.mem_map.mp member
        unfold HostAnomalies.acknowledge at sameId isRelay ⊢
        split_ifs at sameId isRelay ⊢
        · rfl
        · exact relaysSeen before beforeMember sameId isRelay
    | relay machineKey notice fresh =>
        obtain ⟨record, member, isId⟩ := present
        refine appended _ fun sameId => absurd ?_ (fresh record member)
        rw [isId, sameId]

/-- Once every relay of an id was seen, the status brings none back while the id is in the file,
however often the peer goes on reporting it. -/
theorem acknowledged_relay_stays_quiet (id : List Char) (records : List AnomalyNotice)
    (relaysSeen : RelaysSeen id records) (operations : List Operation)
    (present : Runs.Guarded apply (fun records _ => Present id records) records operations) :
    Runs.Always apply
      (fun records => ∀ now cap, ∀ notice ∈ recentAnomalies now cap records, notice.id = id →
        notice.relayedFrom = none) records operations := by
  have preserved : ∀ records operation, RelaysSeen id records → Present id records →
      RelaysSeen id (apply records operation) :=
    fun _ operation relaysSeen present => relaysSeen_apply relaysSeen present operation
  refine Runs.always_of_guarded preserved ?_ relaysSeen present
  intro records relaysSeen now cap notice member sameId
  have filtered := List.mem_reverse.mp (List.mem_of_mem_take member)
  obtain ⟨isRecord, unread⟩ := List.mem_filter.mp filtered
  by_contra isRelay
  rw [relaysSeen notice isRecord sameId isRelay] at unread
  cases unread

/-- The peer reports on, and its notice was seen here. -/
theorem acknowledged_relay_stays_quiet_of_repeated :
    let high : Report := { now := 7, kind := ['h'], severity := [], title := [], detail := [] }
    let id := (relayed ['m'] high.notice).id
    let records := [{ relayed ['m'] high.notice with seen := true }]
    Runs.Always apply
      (fun records => ∀ now cap, ∀ notice ∈ recentAnomalies now cap records, notice.id = id →
        notice.relayedFrom = none) records [.relay ['m'] high.notice, .report high] :=
  acknowledged_relay_stays_quiet _ _ (by decide) _ (by decide)

end Operation

end Yggterm.HostAnomalies
