import Yggterm.Library.OrderedMaps
import Yggterm.Library.Worklists

/-!
# The processes below a row

A snapshot of the process table keeps the children of every pid and one entry for each pid.  The
table is read while it changes, so it may name parents that are gone, and parents in a circle.
-/

namespace Yggterm.Tenancy

/-- One process read out of `/proc`. -/
structure ProcEntry where
  pid : Nat
  ppid : Nat
  pgid : Nat
  comm : List Char
  cmdline : List Char
  /-- utime + stime, in clock ticks. -/
  cpuTicks : Nat
  startTicks : Nat
  deriving DecidableEq

structure ProcSnapshot where
  entries : OrderedMap Nat ProcEntry
  children : OrderedMap Nat (List Nat)
  clockTicksPerSec : Nat
  uptimeSecs : Nat

/-- `children.entry(entry.ppid).or_default().push(entry.pid)` -/
def pushChild (children : OrderedMap Nat (List Nat)) (entry : ProcEntry) :
    OrderedMap Nat (List Nat) :=
  children.insert entry.ppid ((children.get? entry.ppid).getD [] ++ [entry.pid])

namespace ProcSnapshot

def new (entries : List ProcEntry) (clockTicksPerSec uptimeSecs : Nat) : ProcSnapshot where
  entries := entries.foldl (fun map entry => map.insert entry.pid entry) .empty
  children := entries.foldl pushChild .empty
  clockTicksPerSec := max clockTicksPerSec 1
  uptimeSecs

def get (snapshot : ProcSnapshot) (pid : Nat) : Option ProcEntry := snapshot.entries.get? pid

def kids (snapshot : ProcSnapshot) (pid : Nat) : List Nat := (snapshot.children.get? pid).getD []

/-- The children of every pid; they are those of the finitely many keys. -/
def arrows (snapshot : ProcSnapshot) : Arrows Nat where
  nodes := (snapshot.children.entries.flatMap Prod.snd).toFinset
  children := snapshot.kids
  children_mem := by
    intro pid child isKid
    rw [kids] at isKid
    cases known : snapshot.children.get? pid with
    | none => exact absurd isKid (by rw [known]; exact List.not_mem_nil)
    | some pids =>
        rw [known] at isKid
        apply List.mem_toFinset.mpr
        exact List.mem_flatMap.mpr ⟨(pid, pids), OrderedMap.get?_eq_some_iff.mp known, isKid⟩

/-- Strict descendants of `root`, breadth first, cycle-safe. -/
def descendants (snapshot : ProcSnapshot) (root : Nat) : List ProcEntry :=
  snapshot.arrows.below snapshot.get root

end ProcSnapshot

/-- The table says that one process started the other. -/
def Started (table : List ProcEntry) (parent child : Nat) : Prop :=
  ∃ entry ∈ table, entry.ppid = parent ∧ entry.pid = child

theorem mem_foldl_pushChild_iff {table : List ProcEntry} {children : OrderedMap Nat (List Nat)}
    {parent child : Nat} :
    child ∈ ((table.foldl pushChild children).get? parent).getD [] ↔
      child ∈ (children.get? parent).getD [] ∨ Started table parent child := by
  induction table generalizing children with
  | nil => simp [Started]
  | cons entry rest inductionHypothesis =>
      rw [List.foldl_cons, inductionHypothesis, pushChild, OrderedMap.get?_insert]
      by_cases here : parent = entry.ppid
      · simp [here, Started, or_assoc, eq_comm]
      · simp [here, Started, Ne.symm here]

/-- The entries of a table by their pids. -/
theorem get?_foldl_insert {table : List ProcEntry} {map : OrderedMap Nat ProcEntry}
    {pid : Nat} {entry : ProcEntry}
    (found : (table.foldl (fun map entry => map.insert entry.pid entry) map).get? pid =
    some entry) :
    map.get? pid = some entry ∨ entry ∈ table ∧ entry.pid = pid := by
  induction table generalizing map with
  | nil => exact .inl found
  | cons first rest inductionHypothesis =>
      rcases inductionHypothesis found with early | ⟨member, isPid⟩
      · rw [OrderedMap.get?_insert] at early
        split at early
        · next here =>
            cases early
            exact .inr ⟨List.mem_cons_self, here.symm⟩
        · exact .inl early
      · exact .inr ⟨List.mem_cons_of_mem first member, isPid⟩

theorem get?_foldl_insert_of_mem {table : List ProcEntry}
    {map : OrderedMap Nat ProcEntry} {pid : Nat}
    (known : (∃ entry, map.get? pid = some entry) ∨ ∃ entry ∈ table, entry.pid = pid) :
    ∃ entry, (table.foldl (fun map entry => map.insert entry.pid entry) map).get? pid =
      some entry := by
  induction table generalizing map with
  | nil => simpa using known
  | cons first rest inductionHypothesis =>
      apply inductionHypothesis
      by_cases here : pid = first.pid
      · exact .inl ⟨first, by rw [OrderedMap.get?_insert, if_pos here]⟩
      · rw [OrderedMap.get?_insert, if_neg here]
        rcases known with known | ⟨entry, member, isPid⟩
        · exact .inl known
        · rcases List.mem_cons.mp member with rfl | later
          · exact absurd isPid.symm here
          · exact .inr ⟨entry, later, isPid⟩

namespace ProcSnapshot

variable {table : List ProcEntry} {clockTicksPerSec uptimeSecs : Nat}

theorem leads_new_iff {parent child : Nat} :
    (new table clockTicksPerSec uptimeSecs).arrows.Leads parent child ↔
      Started table parent child := by
  apply mem_foldl_pushChild_iff.trans
  rw [OrderedMap.get?_empty, Option.getD_none, or_iff_right List.not_mem_nil]

theorem mem_of_get_new {pid : Nat} {entry : ProcEntry}
    (known : (new table clockTicksPerSec uptimeSecs).get pid = some entry) :
    entry ∈ table ∧ entry.pid = pid := by
  rcases get?_foldl_insert known with early | found
  · cases early
  · exact found

theorem exists_get_new {parent child : Nat} (started : Started table parent child) :
    ∃ entry, (new table clockTicksPerSec uptimeSecs).get child = some entry := by
  obtain ⟨entry, member, _, isChild⟩ := started
  exact get?_foldl_insert_of_mem (.inr ⟨entry, member, isChild⟩)

end ProcSnapshot

/-- Reached over one or more started processes. -/
def Descends (table : List ProcEntry) : Nat → Nat → Prop := Relation.TransGen (Started table)

/-- What the entries found below a row have to be: the pids below it, each once, without the
row's own pid, and every entry the one the snapshot keeps for its pid. -/
structure IsBelow (table : List ProcEntry) (snapshot : ProcSnapshot) (root : Nat)
    (found : List ProcEntry) : Prop where
  nodup : (found.map ProcEntry.pid).Nodup
  mem_iff : ∀ pid, pid ∈ found.map ProcEntry.pid ↔ pid ≠ root ∧ Descends table root pid
  kept : ∀ entry ∈ found, entry ∈ table ∧ snapshot.get entry.pid = some entry

theorem descendants_isBelow (table : List ProcEntry) (clockTicksPerSec uptimeSecs root : Nat) :
    IsBelow table (.new table clockTicksPerSec uptimeSecs) root
      ((ProcSnapshot.new table clockTicksPerSec uptimeSecs).descendants root) := by
  set snapshot := ProcSnapshot.new table clockTicksPerSec uptimeSecs with isNew
  obtain ⟨order, nodup, isOrder, isFound⟩ := snapshot.arrows.exists_below_eq snapshot.get root
  have sameLeads : snapshot.arrows.Leads = Started table := by
    funext parent child
    exact propext ProcSnapshot.leads_new_iff
  rw [sameLeads] at isOrder
  have known : ∀ pid ∈ order, ∃ entry, snapshot.get pid = some entry := by
    intro pid member
    obtain ⟨parent, _, started⟩ := Relation.TransGen.tail'_iff.mp ((isOrder pid).mp member).2
    exact ProcSnapshot.exists_get_new started
  have pids : (order.filterMap snapshot.get).map ProcEntry.pid = order := by
    clear isFound isOrder nodup
    induction order with
    | nil => rfl
    | cons pid rest inductionHypothesis =>
        obtain ⟨⟨entry, isEntry⟩, restKnown⟩ := List.forall_mem_cons.mp known
        rw [List.filterMap_cons_some isEntry, List.map_cons, inductionHypothesis restKnown,
          (ProcSnapshot.mem_of_get_new isEntry).2]
  rw [ProcSnapshot.descendants, isFound]
  refine ⟨?_, ?_, ?_⟩
  · rw [pids]
    exact nodup
  · rw [pids]
    exact isOrder
  · intro entry member
    obtain ⟨pid, _, isEntry⟩ := List.mem_filterMap.mp member
    obtain ⟨isMember, isPid⟩ := ProcSnapshot.mem_of_get_new isEntry
    exact ⟨isMember, isPid ▸ isEntry⟩

end Yggterm.Tenancy
