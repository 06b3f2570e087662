import Mathlib.Data.List.Find
import Yggterm.Ynpm.Verbs

/-!
# Rollbacks

What a rollback is for: the newest complete generation among those installed before the
current one.  The verb takes the newest complete one of all, and only then looks whether it
is the current one.
-/

namespace Ynpm

/-! ## The list around the current version -/

/-- The versions behind the last entry of the current one, newest first. -/
def laterVersions (package : Package) : List (List Char) :=
  package.versions.reverse.takeWhile (· ≠ package.current)

/-- The other versions that were installed before it, newest first. -/
def earlierVersions (package : Package) : List (List Char) :=
  (package.versions.reverse.dropWhile (· ≠ package.current)).filter (· ≠ package.current)

/-- The newest of the earlier versions whose generation still holds every bin. -/
def rollbackTarget (world : World) (key : List Char) (package : Package) : Option (List Char) :=
  (earlierVersions package).find? (holdsEveryBin world key package)

/-- With a target the verb succeeds, publishes every bin from there and records it; without one
there is an error, and the record and the links stay. -/
def RollsBackTo (host : Host) (world : World) (name key : List Char) (package : Package) : Prop :=
  let after := (verbRollback host world name).2
  match rollbackTarget world key package with
  | some target => (verbRollback host world name).1 = .ok () ∧
      (∀ bin ∈ package.bins.keys, after.published (host.packageDestination package) bin =
        some (.link (world.generationBinary key target bin))) ∧
      ∃ later, after.package? key = some later ∧ later.current = target
  | none => (∃ error, (verbRollback host world name).1 = .error error) ∧
      after.package? key = some package ∧ after.links = world.links

/-- Nothing newer stands in the way: no complete version behind the current one, other than the
target again, and not the current one unless there is no target. -/
def Unobstructed (world : World) (key : List Char) (package : Package) : Prop :=
  match (laterVersions package).find? (holdsEveryBin world key package) with
  | some version => rollbackTarget world key package = some version
  | none => rollbackTarget world key package = none ∨
      holdsEveryBin world key package package.current = false

/-- What is asked of the record that a name finds, on the production channel. -/
def OfRecord (world : World) (name : List Char)
    (property : List Char → Package → Prop) : Prop :=
  ∀ packageName pin key package, expandPackage name = .ok (packageName, pin) →
    findPackageKey world.state packageName = some key → world.package? key = some package →
    package.dev = none → property key package

variable {world : World} {key : List Char} {package : Package}

/-- The list ends in the later versions, behind the current one. -/
theorem reverse_versions (listed : package.current ∈ package.versions) :
    ∃ rest, package.versions.reverse = laterVersions package ++ package.current :: rest ∧
      earlierVersions package = rest.filter (· ≠ package.current) := by
  obtain ⟨later, rest, isList, notLater⟩ :=
    List.eq_append_cons_of_mem (List.mem_reverse.mpr listed)
  have others : ∀ version ∈ later, decide (version ≠ package.current) = true := by
    intro version member
    exact decide_eq_true fun same => notLater (same ▸ member)
  have isLater : laterVersions package = later := by
    rw [laterVersions, isList, List.takeWhile_append_of_pos others,
      List.takeWhile_cons_of_neg (by simp), List.append_nil]
  refine ⟨rest, by rw [isLater, isList], ?_⟩
  rw [earlierVersions, isList, List.dropWhile_append_of_pos others,
    List.dropWhile_cons_of_neg (by simp), List.filter_cons_of_neg (by simp)]

/-- What the verb's search finds, told by the parts of the list. -/
theorem find?_reverse_versions (listed : package.current ∈ package.versions)
    (complete : List Char → Bool) :
    package.versions.reverse.find? complete =
        ((laterVersions package).find? complete).or
          (if complete package.current then some package.current
           else (earlierVersions package).find? complete) := by
  obtain ⟨rest, isList, isEarlier⟩ := reverse_versions listed
  rw [isList, List.find?_append, List.find?_cons, isEarlier]
  congr 1
  split
  · next holds => rw [if_pos holds]
  · next lacks =>
      rw [if_neg (by simp [lacks]), List.find?_filter]
      apply List.find?_congr
      intro version _
      rcases eq_or_ne version package.current with rfl | different
      · simp [lacks]
      · simp [different]

/-! ## What the verb does -/

/-- The record after a rollback to the target. -/
def rolledBack (package : Package) (target : List Char) : Package :=
  { package with
    current := target
    dev := none
    channel := some "npm".toList }

variable {name packageName : List Char} {pin : Option (List Char)} (host : Host)

section

variable (expanded : expandPackage name = .ok (packageName, pin))
  (isKey : findPackageKey world.state packageName = some key)
  (isPackage : world.package? key = some package) (onProduction : package.dev = none)

include expanded isKey isPackage onProduction in
theorem verbRollback_of_found {target : List Char} (different : target ≠ package.current)
    (found : package.versions.reverse.find? (holdsEveryBin world key package) = some target) :
    let after := (verbRollback host world name).2
    (verbRollback host world name).1 = .ok () ∧
      after.package? key = some (rolledBack package target) ∧
      ∀ bin ∈ package.bins.keys, after.published (host.packageDestination package) bin =
        some (.link (world.generationBinary key target bin)) := by
  have isTarget : (package.versions.reverse.find? (holdsEveryBin world key package)).filter
      (fun version => package.dev.isSome || version != package.current) = some target := by
    rw [found, onProduction]
    exact Option.filter_some_pos (by simpa using different)
  simp only [verbRollback, expanded, isKey, isPackage, isTarget]
  refine ⟨trivial, OrderedMap.get?_insert_self _ _ _, ?_⟩
  intro bin member
  exact World.published_publish member world (host.packageDestination package) _

include expanded isKey isPackage onProduction in
theorem verbRollback_of_current
    (found : ∀ target ∈ package.versions.reverse.find? (holdsEveryBin world key package),
      target = package.current) :
    verbRollback host world name = (.error .noGeneration, world) := by
  have noTarget : (package.versions.reverse.find? (holdsEveryBin world key package)).filter
      (fun version => package.dev.isSome || version != package.current) = none := by
    rw [Option.filter_eq_none_iff]
    intro target isTarget
    simp [onProduction, found target isTarget]
  simp only [verbRollback, expanded, isKey, isPackage, noTarget]

end

theorem ne_current_of_mem_laterVersions {version : List Char}
    (member : version ∈ laterVersions package) : version ≠ package.current := by
  simpa using List.mem_takeWhile_imp member

theorem ne_current_of_rollbackTarget {target : List Char}
    (isTarget : rollbackTarget world key package = some target) : target ≠ package.current := by
  have member := List.mem_filter.mp (List.mem_of_find?_eq_some isTarget)
  simpa using member.2

/-- What the verb has to do, told by where the newest complete version stands. -/
theorem rollsBackTo_iff (expanded : expandPackage name = .ok (packageName, pin))
    (isKey : findPackageKey world.state packageName = some key)
    (isPackage : world.package? key = some package) (onProduction : package.dev = none)
    (listed : package.current ∈ package.versions) :
    RollsBackTo host world name key package ↔ Unobstructed world key package := by
  have newest := find?_reverse_versions listed (holdsEveryBin world key package)
  rw [← rollbackTarget] at newest
  have backTo : ∀ {version}, version ≠ package.current →
      package.versions.reverse.find? (holdsEveryBin world key package) = some version →
      (RollsBackTo host world name key package ↔
        rollbackTarget world key package = some version) := by
    intro version different found
    obtain ⟨succeeds, isRecord, publishes⟩ :=
      verbRollback_of_found host expanded isKey isPackage onProduction different found
    rw [RollsBackTo]
    cases isTarget : rollbackTarget world key package with
    | none => simp [succeeds]
    | some target =>
        constructor
        · rintro ⟨_, _, later, isLater, isCurrent⟩
          rw [isRecord] at isLater
          rw [← isCurrent, ← Option.some.inj isLater]
          rfl
        · intro same
          cases same
          exact ⟨succeeds, publishes, _, isRecord, rfl⟩
  rw [Unobstructed]
  cases isLater : (laterVersions package).find? (holdsEveryBin world key package) with
  | some version =>
      rw [isLater, Option.some_or] at newest
      have member := List.mem_of_find?_eq_some isLater
      exact backTo (ne_current_of_mem_laterVersions member) newest
  | none =>
      rw [isLater, Option.none_or] at newest
      cases isTarget : rollbackTarget world key package with
      | none =>
          have onlyCurrent : ∀ target ∈ package.versions.reverse.find?
              (holdsEveryBin world key package), target = package.current := by
            intro target isFound
            rw [newest, isTarget] at isFound
            split at isFound
            · exact (Option.some.inj isFound).symm
            · cases isFound
          have refused :=
            verbRollback_of_current host expanded isKey isPackage onProduction onlyCurrent
          simp [RollsBackTo, isTarget, refused, isPackage]
      | some target =>
          cases isHeld : holdsEveryBin world key package package.current with
          | true =>
              rw [isHeld, if_pos rfl] at newest
              have refused := verbRollback_of_current host expanded isKey isPackage onProduction
                (fun other isOther => by
                  rw [newest] at isOther
                  exact (Option.some.inj isOther).symm)
              simp [RollsBackTo, isTarget, refused]
          | false =>
              rw [isHeld, if_neg Bool.false_ne_true, isTarget] at newest
              simpa [isTarget] using backTo (ne_current_of_rollbackTarget isTarget) newest

/-! ## Runs -/

/-- The current version of every record is among its versions. -/
def Listed (world : World) : Prop :=
  ∀ key package, world.package? key = some package → package.current ∈ package.versions

theorem listed_of_insert {after : World} {key : List Char} {package : Package}
    (listed : Listed world) (isListed : package.current ∈ package.versions)
    (inserted : after.state.packages = world.state.packages.insert key package) :
    Listed after := by
  intro other otherPackage isOther
  rw [World.package?, inserted, OrderedMap.get?_insert] at isOther
  split at isOther
  · cases isOther
    exact isListed
  · exact listed other otherPackage isOther

theorem listed_of_records {after : World} {package version key : List Char}
    (listed : Listed world) (records : Records world package version key after) :
    Listed after := by
  cases records with
  | kept same =>
      intro other otherPackage isOther
      rw [World.package?, same] at isOther
      exact listed other otherPackage isOther
  | landed landing isPackage isVersion inserted =>
      exact listed_of_insert listed (landing.version_mem_versions _) inserted

theorem listed_step (host : Host) (world : World) (action : Action) (listed : Listed world) :
    Listed (step host world action) := by
  cases action with
  | install answers spec destination =>
      rcases installOneAt_effect host answers world spec destination with
        same | ⟨package, version, key, _, _, records, _⟩
      · rw [step, same]
        exact listed
      · exact listed_of_records listed records
  | importGeneration answers package version archive bins destination =>
      exact listed_of_records listed (importGeneration_records host answers world package version
        archive bins destination).1
  | rollback name =>
      rcases verbRollback_records host world name with
        same | ⟨key, package, target, _, isTarget, inserted⟩
      · rw [step, same]
        exact listed
      · exact listed_of_insert listed isTarget inserted
  | sweep keep dryRun spares =>
      intro key package isPackage
      rw [step, World.package?, state_sweepGenerations] at isPackage
      exact listed key package isPackage
  | remove answers name =>
      rcases verbRemove_effect host answers world name with
        same | ⟨package, pin, key, _, _, erased, _⟩
      · rw [step, same]
        exact listed
      · intro other otherPackage isOther
        rw [step, World.package?, erased, OrderedMap.get?_erase] at isOther
        split at isOther
        · cases isOther
        · exact listed other otherPackage isOther

theorem listed_run (host : Host) (generations : OrderedMap (List Char ×ₗ List Char) Generation)
    (links : List Publication) (actions : List Action) :
    Listed (Runs.run (step host) (.fresh generations links) actions) :=
  Runs.run_invariant (listed_step host) (fun _ _ isPackage => by cases isPackage) actions

/-- After every run a rollback really rolls back exactly when nothing newer stands in its way. -/
theorem rollsBack_iff (host : Host)
    (generations : OrderedMap (List Char ×ₗ List Char) Generation) (links : List Publication)
    (actions : List Action) (name : List Char) :
    let world := Runs.run (step host) (.fresh generations links) actions
    OfRecord world name (RollsBackTo host world name) ↔
        OfRecord world name (Unobstructed world) := by
  intro world
  have exactly : ∀ packageName pin key package, expandPackage name = .ok (packageName, pin) →
      findPackageKey world.state packageName = some key → world.package? key = some package →
      package.dev = none →
      (RollsBackTo host world name key package ↔ Unobstructed world key package) :=
    fun _ _ key package expanded isKey isPackage onProduction =>
      rollsBackTo_iff host expanded isKey isPackage onProduction
        (listed_run host generations links actions key package isPackage)
  constructor
  · intro rolls packageName pin key package expanded isKey isPackage onProduction
    exact (exactly packageName pin key package expanded isKey isPackage onProduction).mp
      (rolls packageName pin key package expanded isKey isPackage onProduction)
  · intro clear packageName pin key package expanded isKey isPackage onProduction
    exact (exactly packageName pin key package expanded isKey isPackage onProduction).mpr
      (clear packageName pin key package expanded isKey isPackage onProduction)

/-! ## After an update -/

/-- One release, and the next. -/
def afterUpdate : World :=
  Runs.run (step fleetHost) (.fresh .empty [])
    [.install (registryAnswering "0.2.0".toList) "ychrome".toList none,
      .install (registryAnswering "0.2.1".toList) "ychrome".toList none]

def updatedRecord : Package where
  packageName := some "@ygghq/ychrome".toList
  current := "0.2.1".toList
  versions := ["0.2.0".toList, "0.2.1".toList]
  bins := ychromeBins.table
  destination := some fleetHost.dest
  dev := none
  devGeneration := none
  channel := some "npm".toList
  source := some "npm:@ygghq/ychrome".toList

/-- The generation before an update is complete, and there is no way back to it. -/
theorem not_rollsBack_afterUpdate :
    ¬ OfRecord afterUpdate "ychrome".toList
      (RollsBackTo fleetHost afterUpdate "ychrome".toList) := by
  intro rolls
  have found := rolls "@ygghq/ychrome".toList none "ychrome".toList updatedRecord rfl
    (by decide) (by decide) rfl
  have isTarget : rollbackTarget afterUpdate "ychrome".toList updatedRecord =
      some "0.2.0".toList := by
    decide
  have refused : (verbRollback fleetHost afterUpdate "ychrome".toList).1 =
      .error .noGeneration := by
    rfl
  rw [RollsBackTo, isTarget] at found
  rw [refused] at found
  cases found.1

end Ynpm
