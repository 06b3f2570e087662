import Yggterm.Library.HashMaps
import Yggterm.Library.Paths
import Yggterm.Library.Runs

/-!
# The write lock of a web profile

A web profile is a directory that one client at a time may write.  The daemon keeps the
holders in a table under the profile's normalised name; the directory is made from the name
on its own.  Beside the table a second state records which clients were told that they may
write which directory, and strikes them out when they release, die or give way.
-/

namespace Yggterm.WebProfiles

open HashMaps Paths Runs Text

/-! ## Names and directories -/

def webProfileTemp : List Char := "temp".toList

def webProfileDefault : List Char := "default".toList

/-- `normalize_web_profile`. -/
def normalizeWebProfile (profile : Option (List Char)) : List Char :=
  let name := (profile.map trim).getD []
  if name ≠ [] ∧ name ≠ ['.'] ∧ name ≠ ['.', '.'] ∧ '/' ∉ name ∧ '\\' ∉ name then name
  else webProfileDefault

def webProfileIsEphemeral (profile : List Char) : Bool := profile = webProfileTemp

/-- `web_profile_dir_in`. -/
def webProfileDirIn (root profile : List Char) : Option (List Char) :=
  let name := normalizeWebProfile (some profile)
  if webProfileIsEphemeral name then none else some (join root name)

/-- The directory that a request resolves to; a request without a name is one for the
default. -/
def jar (root : List Char) (profile : Option (List Char)) : Option (List Component) :=
  (webProfileDirIn root (profile.getD [])).map components

theorem isEntryName_normalizeWebProfile (profile : Option (List Char)) :
    IsEntryName (normalizeWebProfile profile) := by
  rw [normalizeWebProfile]
  split
  · next safe => exact ⟨safe.1, safe.2.1, safe.2.2.1, safe.2.2.2.1⟩
  · constructor <;> decide

theorem normalizeWebProfile_getD (profile : Option (List Char)) :
    normalizeWebProfile (some (profile.getD [])) = normalizeWebProfile profile := by
  cases profile <;> rfl

theorem jar_eq (root : List Char) (profile : Option (List Char)) :
    jar root profile =
      if webProfileIsEphemeral (normalizeWebProfile profile) then none
      else some (components root ++ [.normal (normalizeWebProfile profile)]) := by
  rw [jar, webProfileDirIn, normalizeWebProfile_getD]
  split
  · rfl
  · rw [Option.map_some, components_join (isEntryName_normalizeWebProfile profile)]

/-! ## The table -/

inductive ClientRole where
  | active
  | shadow
  deriving DecidableEq

abbrev Pid := Fin (2 ^ 32)

structure ProfileWriteLockHolder where
  clientId : List Char
  pid : Pid
  role : ClientRole
  deriving DecidableEq

/-- The same live client: `role` belongs to the grant. -/
def ProfileWriteLockHolder.is (holder other : ProfileWriteLockHolder) : Bool :=
  holder.clientId = other.clientId && holder.pid = other.pid

structure ProfileWriteLockEntry where
  profile : List Char
  holder : ProfileWriteLockHolder
  acquiredAtMs : Fin (2 ^ 64)
  deriving DecidableEq

inductive AcquireOutcome where
  | granted
  | alreadyHeld
  | reclaimedFromDead (previous : ProfileWriteLockHolder)
  | preemptedShadow (previous : ProfileWriteLockHolder)
  | busy (heldBy : ProfileWriteLockHolder)
  | ephemeral
  deriving DecidableEq

def AcquireOutcome.isWritable : AcquireOutcome → Bool
  | .busy _ => false
  | _ => true

inductive ReleaseOutcome where
  | released
  | notHeld
  | notHolder (heldBy : ProfileWriteLockHolder)
  | ephemeral
  deriving DecidableEq

/-- `ProfileWriteLockTable`. -/
abbrev Table := Finmap fun _ : List Char => ProfileWriteLockEntry

/-- `ProfileWriteLockTable::acquire`. -/
def acquire (table : Table) (profile : Option (List Char)) (holder : ProfileWriteLockHolder)
    (nowMs : Fin (2 ^ 64)) (isAlive : Pid → Bool) : AcquireOutcome × Table :=
  let profile := normalizeWebProfile profile
  if webProfileIsEphemeral profile then (.ephemeral, table)
  else
    let taken := table.insert profile ⟨profile, holder, nowMs⟩
    match table.lookup profile with
    | none => (.granted, taken)
    | some current =>
        if current.holder.is holder then (.alreadyHeld, table)
        else if isAlive current.holder.pid then
          if holder.role = .active ∧ current.holder.role = .shadow then
            (.preemptedShadow current.holder, taken)
          else (.busy current.holder, table)
        else (.reclaimedFromDead current.holder, taken)

/-- `ProfileWriteLockTable::release`. -/
def release (table : Table) (profile : Option (List Char)) (holder : ProfileWriteLockHolder) :
    ReleaseOutcome × Table :=
  let profile := normalizeWebProfile profile
  if webProfileIsEphemeral profile then (.ephemeral, table)
  else
    match table.lookup profile with
    | none => (.notHeld, table)
    | some current =>
        if current.holder.is holder then (.released, table.erase profile)
        else (.notHolder current.holder, table)

/-- `ProfileWriteLockTable::reap_dead`; the tree map yields its keys in their order. -/
def reapDead (table : Table) (isAlive : Pid → Bool) : List ProfileWriteLockEntry × Table :=
  let dead := (table.keys.sort (· ≤ ·)).filter fun profile =>
    (table.lookup profile).any fun entry => !isAlive entry.holder.pid
  (dead.filterMap table.lookup, dead.foldl (fun table profile => table.erase profile) table)

/-! ## Who was told -/

/-- A client that was told it may write a directory, under the role of the grant. -/
structure Writer where
  jar : List Component
  holder : ProfileWriteLockHolder
  deriving DecidableEq

/-- A requester takes the place of a dead client, and an active one that of a shadow. -/
def displaces (requester writer : ProfileWriteLockHolder) (isAlive : Pid → Bool) : Bool :=
  !writer.is requester &&
    (!isAlive writer.pid || (requester.role = .active && writer.role = .shadow))

structure State where
  table : Table
  writers : List Writer

def initial : State := ⟨∅, []⟩

inductive Call where
  | acquire (profile : Option (List Char)) (holder : ProfileWriteLockHolder)
      (nowMs : Fin (2 ^ 64)) (isAlive : Pid → Bool)
  | release (profile : Option (List Char)) (holder : ProfileWriteLockHolder)
  | reapDead (isAlive : Pid → Bool)

/-- The writers after an acquire: a requester that may write joins those it does not
displace. -/
def told (target : Option (List Component)) (holder : ProfileWriteLockHolder)
    (isAlive : Pid → Bool) (outcome : AcquireOutcome) (writers : List Writer) : List Writer :=
  match target with
  | none => writers
  | some jar =>
      if outcome.isWritable then
        let staying := writers.filter fun writer =>
          !(writer.jar = jar && displaces holder writer.holder isAlive)
        if staying.any (fun writer => writer.jar = jar && writer.holder.is holder) then staying
        else ⟨jar, holder⟩ :: staying
      else writers

def step (root : List Char) (state : State) : Call → State
  | .acquire profile holder nowMs isAlive =>
      let (outcome, table) := acquire state.table profile holder nowMs isAlive
      ⟨table, told (jar root profile) holder isAlive outcome state.writers⟩
  | .release profile holder =>
      ⟨(release state.table profile holder).2, state.writers.filter fun writer =>
        !(jar root profile = some writer.jar && writer.holder.is holder)⟩
  | .reapDead isAlive =>
      ⟨(reapDead state.table isAlive).2, state.writers.filter fun writer =>
        isAlive writer.holder.pid⟩

/-! ## The table is the record -/

/-- The writers are the holders of the table, each in the directory of its key. -/
def Reflects (root : List Char) (state : State) : Prop :=
  ∀ writer, writer ∈ state.writers ↔ ∃ name entry, state.table.lookup name = some entry ∧
    writer = ⟨components root ++ [.normal name], entry.holder⟩

theorem name_eq_of_jar_eq {root name other : List Char}
    (same : components root ++ [Component.normal name] = components root ++ [.normal other]) :
    name = other := by
  have equal := List.append_cancel_left same
  injection equal with sameComponent
  injection sameComponent

theorem lookup_reapDead (table : Table) (isAlive : Pid → Bool) (name : List Char) :
    (reapDead table isAlive).2.lookup name =
      (table.lookup name).filter fun entry => isAlive entry.holder.pid := by
  rw [reapDead, lookup_foldl_erase]
  cases isHeld : table.lookup name with
  | none => simp
  | some entry =>
      have isKey : name ∈ table.keys := by
        rw [Finmap.mem_keys, Finmap.mem_iff]
        exact ⟨entry, isHeld⟩
      cases alive : isAlive entry.holder.pid <;> simp [isKey, isHeld, alive, Option.filter]

/-- What an acquire does: it takes the lock from nobody or from a holder it displaces, finds
that it has the lock, or is refused. -/
theorem acquire_cases {table after : Table} {profile : Option (List Char)}
    {holder : ProfileWriteLockHolder} {nowMs : Fin (2 ^ 64)} {isAlive : Pid → Bool}
    {outcome : AcquireOutcome}
    (isStored : webProfileIsEphemeral (normalizeWebProfile profile) = false)
    (called : acquire table profile holder nowMs isAlive = (outcome, after)) :
    let name := normalizeWebProfile profile
    (outcome.isWritable = true ∧ after = table.insert name ⟨name, holder, nowMs⟩ ∧
      ∀ current, table.lookup name = some current →
        displaces holder current.holder isAlive = true) ∨
    (after = table ∧ ∃ current, table.lookup name = some current ∧
      displaces holder current.holder isAlive = false ∧
      outcome.isWritable = current.holder.is holder) := by
  rw [acquire, isStored, if_neg Bool.false_ne_true] at called
  cases isHeld : table.lookup (normalizeWebProfile profile) with
  | none =>
      simp only [isHeld, Prod.mk.injEq] at called
      obtain ⟨rfl, rfl⟩ := called
      exact .inl ⟨rfl, rfl, fun current isCurrent => by simp [isHeld] at isCurrent⟩
  | some current =>
      simp only [isHeld] at called
      split at called
      · next same =>
          obtain ⟨rfl, rfl⟩ := Prod.mk.inj called
          exact .inr ⟨rfl, current, isHeld, by simp [displaces, same], same.symm⟩
      · next different =>
          split at called
          · next alive =>
              split at called
              · next preempts =>
                  obtain ⟨rfl, rfl⟩ := Prod.mk.inj called
                  refine .inl ⟨rfl, rfl, ?_⟩
                  intro other isOther
                  obtain rfl := Option.some.inj (isHeld.symm.trans isOther)
                  simp [displaces, different, preempts]
              · next stays =>
                  obtain ⟨rfl, rfl⟩ := Prod.mk.inj called
                  refine .inr ⟨rfl, current, isHeld, ?_, ?_⟩
                  · simpa [displaces, different, alive] using stays
                  · simp [AcquireOutcome.isWritable, different]
          · next dead =>
              obtain ⟨rfl, rfl⟩ := Prod.mk.inj called
              refine .inl ⟨rfl, rfl, ?_⟩
              intro other isOther
              obtain rfl := Option.some.inj (isHeld.symm.trans isOther)
              simp [displaces, different, dead]

theorem lookup_release {profile : Option (List Char)}
    (isStored : webProfileIsEphemeral (normalizeWebProfile profile) = false) (table : Table)
    (holder : ProfileWriteLockHolder) (name : List Char) :
    (release table profile holder).2.lookup name =
      (table.lookup name).filter fun entry =>
        !(name = normalizeWebProfile profile && entry.holder.is holder) := by
  rw [release, isStored, if_neg Bool.false_ne_true]
  by_cases isName : name = normalizeWebProfile profile
  · subst isName
    cases isHeld : table.lookup (normalizeWebProfile profile) with
    | none => simp [isHeld]
    | some current =>
        cases same : current.holder.is holder <;> simp [same, isHeld, Option.filter]
  · have kept : (table.lookup name).filter (fun entry =>
        !(name = normalizeWebProfile profile && entry.holder.is holder)) = table.lookup name := by
      cases table.lookup name <;> simp [isName, Option.filter]
    rw [kept]
    cases table.lookup (normalizeWebProfile profile) with
    | none => rfl
    | some current =>
        cases same : current.holder.is holder <;>
          simp [same, Finmap.lookup_erase_ne isName]

variable {root : List Char} {state : State}

theorem Reflects.mem_of_lookup (reflects : Reflects root state) {name : List Char}
    {entry : ProfileWriteLockEntry} (isHeld : state.table.lookup name = some entry) :
    ⟨components root ++ [.normal name], entry.holder⟩ ∈ state.writers :=
  (reflects _).mpr ⟨name, entry, isHeld, rfl⟩

theorem Reflects.lookup_of_mem (reflects : Reflects root state) {name : List Char}
    {writer : Writer} (member : writer ∈ state.writers)
    (isJar : writer.jar = components root ++ [.normal name]) :
    ∃ entry, state.table.lookup name = some entry ∧ writer.holder = entry.holder := by
  obtain ⟨other, entry, isHeld, rfl⟩ := (reflects writer).mp member
  obtain rfl := name_eq_of_jar_eq isJar
  exact ⟨entry, isHeld, rfl⟩

/-- A requester that displaces whoever held the lock is the one writer of the directory. -/
theorem Reflects.told_of_displaces (reflects : Reflects root state) {name : List Char}
    {holder : ProfileWriteLockHolder} {nowMs : Fin (2 ^ 64)} {isAlive : Pid → Bool}
    {outcome : AcquireOutcome} (writable : outcome.isWritable = true)
    (displaced : ∀ current, state.table.lookup name = some current →
      displaces holder current.holder isAlive = true) :
    Reflects root ⟨state.table.insert name ⟨name, holder, nowMs⟩,
      told (some (components root ++ [.normal name])) holder isAlive outcome state.writers⟩ := by
  have gone : ∀ writer ∈ state.writers, writer.jar = components root ++ [.normal name] →
      displaces holder writer.holder isAlive = true := by
    intro writer member isJar
    obtain ⟨entry, isHeld, isHolder⟩ := reflects.lookup_of_mem member isJar
    rw [isHolder]
    exact displaced entry isHeld
  have staying : (state.writers.filter fun writer =>
      !(writer.jar = components root ++ [.normal name] && displaces holder writer.holder isAlive)) =
      state.writers.filter fun writer => writer.jar ≠ components root ++ [.normal name] := by
    apply List.filter_congr
    intro writer member
    by_cases isJar : writer.jar = components root ++ [.normal name]
    · simp [isJar, gone writer member isJar]
    · simp [isJar]
  have joins : told (some (components root ++ [.normal name])) holder isAlive outcome
      state.writers = ⟨components root ++ [.normal name], holder⟩ ::
        state.writers.filter fun writer => writer.jar ≠ components root ++ [.normal name] := by
    simp only [told, if_pos writable]
    rw [staying, if_neg]
    simp +contextual
  intro writer
  rw [joins, List.mem_cons, List.mem_filter, decide_eq_true_iff]
  constructor
  · rintro (rfl | ⟨member, elsewhere⟩)
    · exact ⟨name, _, Finmap.lookup_insert _, rfl⟩
    · obtain ⟨other, entry, isHeld, rfl⟩ := (reflects writer).mp member
      have different : other ≠ name := by
        rintro rfl
        exact elsewhere rfl
      exact ⟨other, entry, (Finmap.lookup_insert_of_ne _ different).trans isHeld, rfl⟩
  · rintro ⟨other, entry, isHeld, rfl⟩
    rw [lookup_insert_eq] at isHeld
    split at isHeld
    · next same =>
        obtain rfl := Option.some.inj isHeld
        exact .inl (by rw [same])
    · next different =>
        refine .inr ⟨reflects.mem_of_lookup isHeld, fun same => different ?_⟩
        exact name_eq_of_jar_eq same

/-- A requester that displaces nobody leaves the writers as they were. -/
theorem Reflects.told_of_not_displaces (reflects : Reflects root state) {name : List Char}
    {holder : ProfileWriteLockHolder} {isAlive : Pid → Bool} {outcome : AcquireOutcome}
    {current : ProfileWriteLockEntry} (isHeld : state.table.lookup name = some current)
    (stays : displaces holder current.holder isAlive = false)
    (isWriter : outcome.isWritable = current.holder.is holder) :
    told (some (components root ++ [.normal name])) holder isAlive outcome state.writers =
      state.writers := by
  simp only [told]
  split
  · next writable =>
      have staying : (state.writers.filter fun writer =>
          !(writer.jar = components root ++ [.normal name] &&
            displaces holder writer.holder isAlive)) = state.writers := by
        rw [List.filter_eq_self]
        intro writer member
        by_cases isJar : writer.jar = components root ++ [.normal name]
        · obtain ⟨entry, isEntry, isHolder⟩ := reflects.lookup_of_mem member isJar
          obtain rfl := Option.some.inj (isEntry.symm.trans isHeld)
          simp [isHolder, stays]
        · simp [isJar]
      rw [staying, if_pos]
      rw [List.any_eq_true]
      refine ⟨_, reflects.mem_of_lookup isHeld, ?_⟩
      simp [← isWriter, writable]
  · rfl

/-- A call that forgets some entries, and strikes out the writers they are for. -/
theorem Reflects.filter (reflects : Reflects root state) {after : Table}
    (stays : List Char → ProfileWriteLockHolder → Bool) (mayWrite : Writer → Bool)
    (filtered : ∀ name, after.lookup name =
      (state.table.lookup name).filter fun entry => stays name entry.holder)
    (agree : ∀ name holder,
      mayWrite ⟨components root ++ [.normal name], holder⟩ = stays name holder) :
    Reflects root ⟨after, state.writers.filter mayWrite⟩ := by
  intro writer
  simp only [List.mem_filter, reflects writer, filtered, Option.filter_eq_some_iff]
  constructor
  · rintro ⟨⟨name, entry, isHeld, rfl⟩, writes⟩
    exact ⟨name, entry, ⟨isHeld, (agree name entry.holder).symm.trans writes⟩, rfl⟩
  · rintro ⟨name, entry, ⟨isHeld, kept⟩, rfl⟩
    exact ⟨⟨name, entry, isHeld, rfl⟩, (agree name entry.holder).trans kept⟩

theorem Reflects.step (reflects : Reflects root state) (call : Call) :
    Reflects root (step root state call) := by
  cases call with
  | acquire profile holder nowMs isAlive =>
      cases called : acquire state.table profile holder nowMs isAlive with
      | mk outcome after =>
          simp only [WebProfiles.step, jar_eq, called]
          cases isEphemeral : webProfileIsEphemeral (normalizeWebProfile profile) with
          | true =>
              obtain ⟨rfl, rfl⟩ : .ephemeral = outcome ∧ state.table = after := by
                simpa [acquire, isEphemeral] using called
              exact reflects
          | false =>
              rcases acquire_cases isEphemeral called with
                ⟨writable, rfl, displaced⟩ | ⟨rfl, current, isHeld, stays, isWriter⟩
              · exact reflects.told_of_displaces writable displaced
              · simpa [reflects.told_of_not_displaces isHeld stays isWriter] using reflects
  | release profile holder =>
      simp only [WebProfiles.step, jar_eq]
      cases isEphemeral : webProfileIsEphemeral (normalizeWebProfile profile) with
      | true =>
          have unchanged : release state.table profile holder = (.ephemeral, state.table) := by
            simp [release, isEphemeral]
          rw [unchanged]
          simpa using reflects
      | false =>
          apply reflects.filter (fun name other =>
            !(name = normalizeWebProfile profile && other.is holder))
          · exact lookup_release isEphemeral state.table holder
          · intro name other
            by_cases isName : name = normalizeWebProfile profile
            · simp [isName]
            · simp [isName, Ne.symm isName]
  | reapDead isAlive =>
      exact reflects.filter (fun _ holder => isAlive holder.pid) _
        (lookup_reapDead state.table isAlive) (fun _ _ => rfl)

/-- A client that is told it may write a directory is one of its writers. -/
theorem exists_writer_of_isWritable {profile : Option (List Char)}
    {holder : ProfileWriteLockHolder} {nowMs : Fin (2 ^ 64)} {isAlive : Pid → Bool}
    {target : List Component} (isTarget : jar root profile = some target)
    (writable : (acquire state.table profile holder nowMs isAlive).1.isWritable = true) :
    ∃ writer ∈ (step root state (.acquire profile holder nowMs isAlive)).writers,
      writer.jar = target ∧ writer.holder.is holder = true := by
  simp only [step, isTarget, told, if_pos writable]
  split
  · next already =>
      obtain ⟨writer, member, isWriter⟩ := List.any_eq_true.mp already
      exact ⟨writer, member, by simpa using isWriter⟩
  · exact ⟨_, List.mem_cons_self, rfl, by simp [ProfileWriteLockHolder.is]⟩

theorem reflects_initial (root : List Char) : Reflects root initial := by
  intro writer
  simp [initial]

/-- Two writers of one directory are one client. -/
def OneWriterPerJar (writers : List Writer) : Prop :=
  ∀ first ∈ writers, ∀ second ∈ writers, first.jar = second.jar →
    first.holder.is second.holder = true

/-- However clients acquire, release and are reaped, and under whatever names: from the time
one is told that it may write a directory, no other is told so before it released, died or
gave way. -/
theorem one_writer (root : List Char) (calls : List Call) :
    OneWriterPerJar (run (step root) initial calls).writers := by
  have reflects : Reflects root (run (step root) initial calls) :=
    run_invariant (fun state call reflects => reflects.step call) (reflects_initial root) calls
  intro first isFirst second isSecond sameJar
  obtain ⟨name, entry, isHeld, rfl⟩ := (reflects first).mp isFirst
  obtain ⟨other, isOther, isHolder⟩ := reflects.lookup_of_mem isSecond sameJar.symm
  obtain rfl := Option.some.inj (isHeld.symm.trans isOther)
  rw [isHolder]
  simp [ProfileWriteLockHolder.is]

end Yggterm.WebProfiles
