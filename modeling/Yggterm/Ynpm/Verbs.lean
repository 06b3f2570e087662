import Yggterm.Library.Runs
import Yggterm.Ynpm.Effects

/-!
# Imports, rollbacks, removals

The verbs beside installs, and runs of all of them.
-/

namespace Ynpm

/-! ## Imports -/

/-- `archive` is what a peer sent, unpacked. -/
def importGeneration (host : Host) (answers : Answers) (world : World)
    (package version : List Char) (archive : Option Generation) (bins : List (List Char))
    (destination : Option (List Char)) : Except YnpmError Unit × World :=
  match archive with
  | none => (.error .unpack, world)
  | some staging =>
      match verifyBins (fun bin =>
        match answers.runVersion (.staged bin) with
        | none => .error (.noAnswer bin)
        | some _ => .ok ()) bins with
      | .error error => (.error error, world)
      | .ok () =>
          if bins = [] then (.error .noBins, world)
          else
            let key := packageStorageKey package
            let kept := if (world.generation? key version).isSome then world
              else world.setGeneration key version staging
            if !answers.appManifest package then (.error .appManifest, kept)
            else
              let landed := kept.land key
                { package := package
                  version := version
                  bins := nestedBins bins
                  destination := host.destination destination
                  channel := "npm".toList
                  source := "peer:".toList ++ package }
              (.ok (), landed.publish (host.destination destination)
                (fun bin => some (.link (kept.generationBinary key version bin))) bins)

/-! ## Rollbacks -/

/-- The generation of a version still holds every bin of the record. -/
def holdsEveryBin (world : World) (key : List Char) (package : Package) (version : List Char) :
    Bool :=
  package.bins.keys.all fun bin => world.isFile (world.generationBinary key version bin)

def verbRollback (host : Host) (world : World) (name : List Char) :
    Except YnpmError Unit × World :=
  match expandPackage name with
  | .error error => (.error (.name error), world)
  | .ok (packageName, _) =>
      match findPackageKey world.state packageName with
      | none => (.error .notRecorded, world)
      | some key =>
          match world.package? key with
          | none => (.error .notRecorded, world)
          | some package =>
              match (package.versions.reverse.find? (holdsEveryBin world key package)).filter
                  fun version => package.dev.isSome || version != package.current with
              | none => (.error .noGeneration, world)
              | some target =>
                  let published := world.publish (host.packageDestination package)
                    (fun bin => some (.link (world.generationBinary key target bin)))
                    package.bins.keys
                  (.ok (), published.setPackage key
                    { package with
                      current := target
                      dev := none
                      channel := some "npm".toList })

/-! ## Removals -/

def anotherPackageOwnsBinary (host : Host) (state : State) (excludedKey destination : List Char)
    (binary : List Char) : Bool :=
  state.packages.entries.any fun entry => entry.1 != excludedKey &&
    Paths.components (host.packageDestination entry.2) == Paths.components destination &&
      (entry.2.bins.get? binary).isSome

def verbRemove (host : Host) (answers : Answers) (world : World) (name : List Char) :
    Except YnpmError Unit × World :=
  match expandPackage name with
  | .error error => (.error (.name error), world)
  | .ok (packageName, _) =>
      match findPackageKey world.state packageName with
      | none => (.error .notRecorded, world)
      | some key =>
          match world.package? key with
          | none => (.error .notRecorded, world)
          | some package =>
              let state := { world.state with packages := world.state.packages.erase key }
              if answers.liveUnder key then (.error .live, world)
              else
                let destination := host.packageDestination package
                let removed := package.bins.keys.filter fun bin =>
                  !anotherPackageOwnsBinary host state key destination bin &&
                    (world.published destination bin).isSome
                (.ok (), { world.publish destination (fun _ => none) removed with
                  state := state
                  generations := world.generations.filter fun place _ => (ofLex place).1 != key })

/-! ## Runs -/

inductive Action where
  | install (answers : Answers) (spec : List Char) (destination : Option (List Char))
  | importGeneration (answers : Answers) (package version : List Char)
      (archive : Option Generation) (bins : List (List Char)) (destination : Option (List Char))
  | rollback (name : List Char)
  | sweep (keep : Nat) (dryRun : Bool) (spares : List Char → List Char → Bool)
  | remove (answers : Answers) (name : List Char)

def step (host : Host) (world : World) : Action → World
  | .install answers spec destination => (installOneAt host answers world spec destination).2
  | .importGeneration answers package version archive bins destination =>
      (Ynpm.importGeneration host answers world package version archive bins destination).2
  | .rollback name => (verbRollback host world name).2
  | .sweep keep dryRun spares => sweepGenerations world keep dryRun spares
  | .remove answers name => (verbRemove host answers world name).2

/-- Nothing is recorded; generations and binaries may be there. -/
def World.fresh (generations : OrderedMap (List Char ×ₗ List Char) Generation)
    (links : List Publication) : World where
  state := ⟨.empty, none⟩
  generations := generations
  links := links

/-! ## What the verbs do to the records -/

theorem importGeneration_records (host : Host) (answers : Answers) (world : World)
    (package version : List Char) (archive : Option Generation) (bins : List (List Char))
    (destination : Option (List Char)) :
    let after :=
      (importGeneration host answers world package version archive bins destination).2
    Records world package version (packageStorageKey package) after ∧
      SweptElsewhere answers world (packageStorageKey package) after := by
  have same : Records world package version (packageStorageKey package) world ∧
      SweptElsewhere answers world (packageStorageKey package) world :=
    ⟨.kept rfl, fun _ _ _ => .inl rfl⟩
  rw [importGeneration.eq_def]
  split
  · exact same
  next staging =>
  split
  · exact same
  split
  · exact same
  dsimp only
  have keptState : (if (world.generation? (packageStorageKey package) version).isSome then world
      else world.setGeneration (packageStorageKey package) version staging).state =
        world.state := by
    split <;> rfl
  have keptElsewhere : ∀ other otherVersion, other ≠ packageStorageKey package →
      (if (world.generation? (packageStorageKey package) version).isSome then world
        else world.setGeneration (packageStorageKey package) version staging).generation? other
          otherVersion = world.generation? other otherVersion := by
    intro other otherVersion different
    split
    · rfl
    · exact generation?_setGeneration_of_ne different world version otherVersion staging
  split
  · exact ⟨.kept (congrArg State.packages keptState),
      fun other otherVersion different => .inl (keptElsewhere other otherVersion different)⟩
  · refine ⟨.landed ⟨package, version, nestedBins bins, host.destination destination, "npm".toList,
      "peer:".toList ++ package⟩ rfl rfl ?_, sweptElsewhere_land keptElsewhere⟩
    rw [World.state_publish, World.land, World.package?, World.package?,
      World.setPackage, keptState]

/-- A rollback goes to a version of the list, or changes nothing. -/
theorem verbRollback_records (host : Host) (world : World) (name : List Char) :
    (verbRollback host world name).2 = world ∨
      ∃ key package target, world.package? key = some package ∧ target ∈ package.versions ∧
        (verbRollback host world name).2.state.packages = world.state.packages.insert key
          { package with
            current := target
            dev := none
            channel := some "npm".toList } := by
  rw [verbRollback]
  split
  · exact .inl rfl
  split
  · exact .inl rfl
  next key isKey =>
  split
  · exact .inl rfl
  next package isPackage =>
  split
  · exact .inl rfl
  next target isTarget =>
  have found := (Option.filter_eq_some_iff.mp isTarget).1
  exact .inr ⟨key, package, target, isPackage,
    List.mem_reverse.mp (List.mem_of_find?_eq_some found), rfl⟩

/-- A removal takes one record and its generations, or changes nothing. -/
theorem verbRemove_effect (host : Host) (answers : Answers) (world : World) (name : List Char) :
    (verbRemove host answers world name).2 = world ∨
      ∃ package pin key, expandPackage name = .ok (package, pin) ∧
        findPackageKey world.state package = some key ∧
        (verbRemove host answers world name).2.state.packages = world.state.packages.erase key ∧
        ∀ other version, other ≠ key →
          (verbRemove host answers world name).2.generation? other version =
            world.generation? other version := by
  rw [verbRemove]
  split
  · exact .inl rfl
  next package pin expanded =>
  split
  · exact .inl rfl
  next key isKey =>
  split
  · exact .inl rfl
  dsimp only
  split
  · exact .inl rfl
  · refine .inr ⟨package, pin, key, expanded, isKey, rfl, ?_⟩
    intro other version different
    rw [World.generation?, OrderedMap.get?_filter, World.generation?]
    cases world.generations.get? (toLex (other, version)) with
    | none => rfl
    | some generation => exact Option.filter_some_pos (by simpa using different)

end Ynpm
