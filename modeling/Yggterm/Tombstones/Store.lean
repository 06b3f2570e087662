import Mathlib.Data.Prod.Lex
import Mathlib.Data.String.Basic
import Yggterm.Library.Newest

/-!
# Tombstones of closed rows

`yggterm-server/src/live_row_tombstones.rs` remembers which live rows were closed, in
one file that every daemon of the machine reads and rewrites.  A close keeps its row
from being imported again until it expires, is forgotten because the row is back, or
is evicted by newer closes.
-/

namespace Yggterm.Tombstones

open Newest

def tombstoneTtlSecs : Nat := 3 * 24 * 60 * 60

def tombstoneRenewalAgeSecs : Nat := tombstoneTtlSecs / 2

def maxTombstones : Nat := 512

def maxDepartures : Nat := 2048

inductive RowDeparture where
  | explicitClose
  | guiCloseDisposable
  | persistDropped
  | peerSessionGone
  deriving DecidableEq

structure LiveRowDeparture where
  identity : String
  path : String
  title : String
  reason : RowDeparture
  departedAt : Nat
  detail : Option String
  kind : Option String
  cwd : Option String
  deriving DecidableEq

/-- The identity of a row and the second its close was recorded. -/
abbrev Entries := Std.ExtTreeMap String Nat

structure LiveRowTombstones where
  entries : Entries
  departures : List LiveRowDeparture

def expired (recorded now : Nat) : Bool :=
  decide (tombstoneTtlSecs ≤ now - recorded)

/-- A close as the eviction orders it: by its second, then by the identity. -/
def dated (entry : String × Nat) : ℕ ×ₗ String :=
  toLex (entry.2, entry.1)

def datedEntries (entries : Entries) : List (ℕ ×ₗ String) :=
  entries.toList.map dated

namespace LiveRowTombstones

def evictOverCap (tombstones : LiveRowTombstones) : LiveRowTombstones :=
  if tombstones.entries.size ≤ maxTombstones then tombstones
  else
    { tombstones with
      entries := (oldest maxTombstones (datedEntries tombstones.entries)).foldl
        (fun remaining close => remaining.erase (ofLex close).2) tombstones.entries }

/-- At second zero the ledger of departures is only capped. -/
def gcDepartures (tombstones : LiveRowTombstones) (now : Nat) : LiveRowTombstones :=
  let kept := if now = 0 then tombstones.departures
    else tombstones.departures.filter fun departure => !expired departure.departedAt now
  { tombstones with
    departures :=
      if maxDepartures < kept.length then
        (kept.mergeSort fun first second => decide (first.departedAt ≤ second.departedAt)).drop
          (kept.length - maxDepartures)
      else kept }

def gc (tombstones : LiveRowTombstones) (now : Nat) : LiveRowTombstones :=
  let unexpired : LiveRowTombstones :=
    { tombstones with
      entries := tombstones.entries.filter fun _ recorded => !expired recorded now }
  unexpired.evictOverCap.gcDepartures now

def record (tombstones : LiveRowTombstones) (identity : String) (now : Nat) : LiveRowTombstones :=
  if tombstones.entries.contains identity then tombstones
  else { tombstones with entries := tombstones.entries.insert identity now }.evictOverCap

def clear (tombstones : LiveRowTombstones) (identity : String) : LiveRowTombstones :=
  { tombstones with entries := tombstones.entries.erase identity }

def blocks (tombstones : LiveRowTombstones) (identity : String) (now : Nat) : Bool :=
  tombstones.entries[identity]?.any fun recorded => !expired recorded now

def touch (tombstones : LiveRowTombstones) (identity : String) (now : Nat) : LiveRowTombstones :=
  match tombstones.entries[identity]? with
  | none => tombstones
  | some recorded =>
      if expired recorded now then tombstones.clear identity
      else if tombstoneRenewalAgeSecs ≤ now - recorded then
        { tombstones with entries := tombstones.entries.insert identity now }
      else tombstones

def pushDeparture (tombstones : LiveRowTombstones) (departure : LiveRowDeparture) :
    LiveRowTombstones :=
  { tombstones with departures := tombstones.departures ++ [departure] }.gcDepartures 0

/-! ## The shared file

What a daemon writes is what the next one reads; a missing file is the empty set. -/

def load (file : LiveRowTombstones) (now : Nat) : LiveRowTombstones :=
  file.gc now

/-- The file and the copy a daemon keeps after one locked read and rewrite, and whether
the file was written. -/
def mutateShared (file : LiveRowTombstones)
    (mutate : LiveRowTombstones → LiveRowTombstones) :
    LiveRowTombstones × LiveRowTombstones × Bool :=
  let shared := mutate file
  let changed := decide (shared.entries ≠ file.entries) ||
    decide (shared.departures.length ≠ file.departures.length)
  (if changed then shared else file, shared, changed)

def recordClose (file : LiveRowTombstones) (identity : String) (now : Nat) :
    LiveRowTombstones × LiveRowTombstones × Bool :=
  mutateShared file fun shared => shared.record identity now

def touchClose (file : LiveRowTombstones) (identity : String) (now : Nat) :
    LiveRowTombstones × LiveRowTombstones × Bool :=
  mutateShared file fun shared => shared.touch identity now

def recordDeparture (file : LiveRowTombstones) (departure : LiveRowDeparture) :
    LiveRowTombstones × LiveRowTombstones × Bool :=
  mutateShared file fun shared => shared.pushDeparture departure

def reconcile (file : LiveRowTombstones) (now : Nat) (entered : List String) :
    LiveRowTombstones × LiveRowTombstones × Bool :=
  mutateShared file fun shared => entered.foldl clear (shared.gc now)

end LiveRowTombstones

/-! ## What the operations leave in the set -/

theorem dated_injective {first second : String × Nat} (same : dated first = dated second) :
    first = second := by
  have parts := Prod.mk.inj (toLex.injective same)
  exact Prod.ext parts.2 parts.1

theorem mem_datedEntries {entries : Entries} {entry : String × Nat} :
    dated entry ∈ datedEntries entries ↔ entries[entry.1]? = some entry.2 := by
  rw [datedEntries, List.mem_map, ← Std.ExtTreeMap.mem_toList_iff_getElem?_eq_some]
  constructor
  · rintro ⟨other, member, same⟩
    rwa [← dated_injective same]
  · intro member
    exact ⟨entry, member, rfl⟩

theorem nodup_datedEntries (entries : Entries) : (datedEntries entries).Nodup := by
  apply List.Nodup.map_on
  · intro first _ second _ same
    exact dated_injective same
  · apply entries.distinct_keys_toList.imp
    rintro first _ different rfl
    exact different (Std.ReflCmp.compare_self)

theorem length_datedEntries (entries : Entries) :
    (datedEntries entries).length = entries.size := by
  rw [datedEntries, List.length_map, Std.ExtTreeMap.length_toList]

theorem getElem?_foldl_erase {closes : List (ℕ ×ₗ String)} {entries : Entries}
    {identity : String} {recorded : Nat} :
    (closes.foldl (fun remaining close => remaining.erase (ofLex close).2) entries)[identity]? =
        some recorded ↔
      entries[identity]? = some recorded ∧ ∀ other, dated (identity, other) ∉ closes := by
  induction closes generalizing entries with
  | nil => simp
  | cons close rest inductionHypothesis =>
      rw [List.foldl_cons, inductionHypothesis, Std.ExtTreeMap.getElem?_erase]
      by_cases isClose : (ofLex close).2 = identity
      · rw [if_pos (Std.LawfulEqCmp.compare_eq_iff_eq.mpr isClose)]
        constructor
        · rintro ⟨found, _⟩
          simp at found
        · rintro ⟨_, absent⟩
          subst isClose
          exact absurd List.mem_cons_self (absent (ofLex close).1)
      · rw [if_neg (mt Std.LawfulEqCmp.compare_eq_iff_eq.mp isClose)]
        have different : ∀ other, dated (identity, other) ≠ close := by
          rintro other rfl
          exact isClose rfl
        simp [different]

namespace LiveRowTombstones

/-- A close survives the cap exactly when fewer than the cap are newer. -/
theorem getElem?_evictOverCap {tombstones : LiveRowTombstones} {identity : String}
    {recorded : Nat} :
    tombstones.evictOverCap.entries[identity]? = some recorded ↔
      tombstones.entries[identity]? = some recorded ∧
        newer (datedEntries tombstones.entries) (dated (identity, recorded)) < maxTombstones := by
  unfold evictOverCap
  by_cases fits : tombstones.entries.size ≤ maxTombstones
  · rw [if_pos fits]
    constructor
    · intro found
      refine ⟨found, lt_of_lt_of_le (newer_lt_length (mem_datedEntries.mpr found)) ?_⟩
      rwa [length_datedEntries]
    · exact And.left
  · rw [if_neg fits]
    dsimp only
    rw [getElem?_foldl_erase]
    constructor
    · rintro ⟨found, notOldest⟩
      refine ⟨found, not_le.mp ?_⟩
      intro many
      apply notOldest recorded
      exact (mem_oldest_iff (nodup_datedEntries _)).mpr ⟨mem_datedEntries.mpr found, many⟩
    · rintro ⟨found, few⟩
      refine ⟨found, ?_⟩
      intro other isOldest
      obtain ⟨member, many⟩ := (mem_oldest_iff (nodup_datedEntries _)).mp isOldest
      obtain rfl := Option.some.inj (found.symm.trans (mem_datedEntries.mp member))
      exact absurd few (not_lt.mpr many)

theorem size_evictOverCap_le (tombstones : LiveRowTombstones) :
    tombstones.evictOverCap.entries.size ≤ maxTombstones := by
  rw [← length_datedEntries]
  refine length_le_of_not_mem_oldest (nodup_datedEntries _) (?_ : ∀ close ∈ _,
    close ∈ datedEntries tombstones.entries ∧ _)
  intro close member
  obtain ⟨entry, inside, rfl⟩ := List.mem_map.mp member
  obtain ⟨found, few⟩ := getElem?_evictOverCap.mp
    (Std.ExtTreeMap.mem_toList_iff_getElem?_eq_some.mp inside)
  refine ⟨mem_datedEntries.mpr found, ?_⟩
  intro isOldest
  exact absurd few (not_lt.mpr ((mem_oldest_iff (nodup_datedEntries _)).mp isOldest).2)

end LiveRowTombstones

end Yggterm.Tombstones
