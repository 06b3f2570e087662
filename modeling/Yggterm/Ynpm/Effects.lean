import Yggterm.Ynpm.Install

/-!
# What an install does

The records either stay or one of them is written; generations change under one key, and
where the retention pass takes them.
-/

namespace Ynpm

variable {host : Host} {answers : Answers} {world : World} {package version : List Char}
  {pin destination : Option (List Char)}

/-! ## Links that a newer dev build keeps -/

theorem convergeCliLink_frame (host : Host) (npmSemver : SemVer) (world : World)
    (bin : List Char) :
    (convergeCliLink host npmSemver world bin).state = world.state ∧
      (convergeCliLink host npmSemver world bin).generations = world.generations := by
  rw [convergeCliLink]
  split
  · exact ⟨rfl, rfl⟩
  · dsimp only
    split_ifs <;> exact ⟨rfl, rfl⟩

theorem convergeCliLinks_frame (host : Host) (npmSemver : SemVer) (bins : List (List Char))
    (world : World) :
    (bins.foldl (convergeCliLink host npmSemver) world).state = world.state ∧
      (bins.foldl (convergeCliLink host npmSemver) world).generations = world.generations := by
  induction bins generalizing world with
  | nil => exact ⟨rfl, rfl⟩
  | cons bin rest inductionHypothesis =>
      obtain ⟨sameState, sameGenerations⟩ := convergeCliLink_frame host npmSemver world bin
      obtain ⟨restState, restGenerations⟩ :=
        inductionHypothesis (convergeCliLink host npmSemver world bin)
      exact ⟨restState.trans sameState, restGenerations.trans sameGenerations⟩

/-- Only links converge. -/
theorem convergeCliLinksToNewerDev_frame (host : Host) (world : World) (bins : List (List Char))
    (npmVersion : List Char) :
    (convergeCliLinksToNewerDev host world bins npmVersion).state = world.state ∧
      (convergeCliLinksToNewerDev host world bins npmVersion).generations = world.generations := by
  rw [convergeCliLinksToNewerDev]
  split
  · exact ⟨rfl, rfl⟩
  · exact convergeCliLinks_frame host _ bins world

/-! ## What happens to the records -/

/-- The records after an install of a version under a key. -/
inductive Records (world : World) (package version key : List Char) (after : World) : Prop where
  | kept (same : after.state.packages = world.state.packages)
  | landed (landing : Landing) (isPackage : landing.package = package)
      (isVersion : landing.version = version)
      (inserted : after.state.packages =
        world.state.packages.insert key (landing.record (world.package? key)))

/-- The generations after an install under a key: under another key some are swept. -/
def SweptElsewhere (answers : Answers) (world : World) (key : List Char) (after : World) : Prop :=
  ∀ other version, other ≠ key →
    after.generation? other version = world.generation? other version ∨
      autoSweepDue world answers.now = true ∧
        survivesSweep world sweepDefaultKeep answers.spares other version = false

/-- A discovery that answers less than what is installed. -/
def Refuses (world : World) (package : List Char) (pin : Option (List Char))
    (version : List Char) : Prop :=
  pinIsExplicit pin = false ∧ ∃ existing ∈ world.package? (npmKey world.state package),
    downgradeRefusalNote existing.current version = true

theorem generationNames_setGeneration_of_ne {key other : List Char} (different : other ≠ key)
    (world : World) (version : List Char) (generation : Generation) :
    (world.setGeneration key version generation).generationNames other =
      world.generationNames other := by
  have others : ∀ entries : List ((List Char ×ₗ List Char) × Generation),
      ((OrderedMap.insertEntry (toLex (key, version)) generation entries).map Prod.fst).filter
          (fun place => (ofLex place).1 = other) =
        (entries.map Prod.fst).filter fun place => (ofLex place).1 = other := by
    intro entries
    induction entries with
    | nil => simp [OrderedMap.insertEntry, Ne.symm different]
    | cons first rest inductionHypothesis =>
        rw [OrderedMap.insertEntry]
        split
        · simp [Ne.symm different]
        · split
          · next same => simp [← same, Ne.symm different]
          · rw [List.map_cons, List.map_cons, List.filter_cons, List.filter_cons,
              inductionHypothesis]
  exact congrArg (List.map _) (others world.generations.entries)

theorem generation?_setGeneration_of_ne {key other : List Char} (different : other ≠ key)
    (world : World) (version otherVersion : List Char) (generation : Generation) :
    (world.setGeneration key version generation).generation? other otherVersion =
      world.generation? other otherVersion := by
  apply OrderedMap.get?_insert_of_ne
  intro same
  exact different (congrArg (fun place => (ofLex place).1) same)

/-- What the pass would keep of a package depends on its record and its generations. -/
theorem survivesSweep_congr {world other : World} {key : List Char}
    (samePackage : other.package? key = world.package? key)
    (sameNames : other.generationNames key = world.generationNames key) (keep : Nat)
    (spares : List Char → List Char → Bool) (version : List Char) :
    survivesSweep other keep spares key version = survivesSweep world keep spares key version := by
  rw [survivesSweep, survivesSweep, samePackage, sameNames]

theorem sweptElsewhere_autoSweepIfDue {before : World} {key : List Char}
    (samePackages : ∀ other, other ≠ key → before.package? other = world.package? other)
    (sameNames : ∀ other, other ≠ key → before.generationNames other = world.generationNames other)
    (sameGenerations : ∀ other version, other ≠ key →
      before.generation? other version = world.generation? other version)
    (sameStamp : before.state.lastAutoSweepMs = world.state.lastAutoSweepMs) :
    SweptElsewhere answers world key (autoSweepIfDue answers before) := by
  intro other version different
  rw [← sameGenerations other version different]
  rcases generation?_autoSweepIfDue answers before other version with same | ⟨due, swept⟩
  · exact .inl same
  · right
    rw [survivesSweep_congr (samePackages other different) (sameNames other different)] at swept
    rw [autoSweepDue, sameStamp] at due
    exact ⟨due, swept⟩

/-! ## The ways of an install -/

theorem keys_ne_nil (bins : ParsedBins) : bins.table.keys ≠ [] := by
  simpa [OrderedMap.keys] using bins.nonempty

/-- What becomes of a world when a generation is written, a record lands and links are made. -/
theorem sweptElsewhere_land {kept : World} {key : List Char} {landing : Landing}
    {destination : List Char} {content : List Char → Option Published} {bins : List (List Char)}
    (sameGenerations : ∀ other version, other ≠ key →
      kept.generation? other version = world.generation? other version) :
    SweptElsewhere answers world key ((kept.land key landing).publish destination content bins) :=
  fun other version different => .inl (sameGenerations other version different)

/-- The archive of a tarball that goes through. -/
def tarballOffer (answers : Answers) (spec : List Char) : Option Archive :=
  match verifiedArchive answers spec with
  | .error _ => none
  | .ok archive => if answers.appManifest archive.name then some archive else none

theorem fetchTarball_of_tarballOffer {spec : List Char} {archive : Archive}
    (offered : tarballOffer answers spec = some archive) :
    answers.fetchTarball spec = some archive := by
  rw [tarballOffer, verifiedArchive] at offered
  cases fetched : answers.fetchTarball spec with
  | none => simp [fetched] at offered
  | some other =>
      rw [fetched] at offered
      dsimp only at offered
      split at offered
      · cases offered
      · next isVerified =>
          split at isVerified
          · cases isVerified
          · cases isVerified
            split at offered
            · exact offered
            · cases offered

variable (host world destination) in
theorem installPrebuiltTarball_landed {spec : List Char} {archive : Archive}
    (offered : tarballOffer answers spec = some archive) :
    let after := (installPrebuiltTarball host answers world spec destination).2
    (∃ landing : Landing, landing.package = archive.name ∧ landing.version = archive.version ∧
      after.state.packages = world.state.packages.insert (packageStorageKey archive.name)
        (landing.record (world.package? (packageStorageKey archive.name)))) ∧
      after.links ≠ world.links := by
  rw [tarballOffer] at offered
  split at offered
  · cases offered
  · next other isVerified =>
      split at offered
      · next registers =>
          cases offered
          simp only [installPrebuiltTarball, isVerified, registers, Bool.not_true,
            Bool.false_eq_true, if_false]
          exact ⟨⟨_, rfl, rfl, rfl⟩,
            World.links_publish_ne (keys_ne_nil archive.bins) (World.land _ _ _) _ _⟩
      · cases offered

variable (host world destination) in
theorem installPrebuiltTarball_kept {spec : List Char}
    (nothing : tarballOffer answers spec = none) :
    let after := (installPrebuiltTarball host answers world spec destination).2
    after.state = world.state ∧ after.links = world.links := by
  rw [tarballOffer] at nothing
  rw [installPrebuiltTarball]
  cases isVerified : verifiedArchive answers spec with
  | error error => exact ⟨rfl, rfl⟩
  | ok archive =>
      rw [isVerified] at nothing
      dsimp only at nothing
      split at nothing
      · cases nothing
      · next unregistered =>
          simp only [unregistered]
          exact ⟨rfl, rfl⟩

theorem installPrebuiltTarball_swept {spec : List Char} {archive : Archive}
    (isArchive : answers.fetchTarball spec = some archive) :
    SweptElsewhere answers world (packageStorageKey archive.name)
      (installPrebuiltTarball host answers world spec destination).2 := by
  rw [installPrebuiltTarball, verifiedArchive, isArchive]
  dsimp only
  cases verifyTrueAnswers answers archive.ships archive.version archive.bins.table.keys with
  | error error => exact fun _ _ _ => .inl rfl
  | ok _ =>
      have elsewhere : ∀ generation other version, other ≠ packageStorageKey archive.name →
          (world.setGeneration (packageStorageKey archive.name) archive.version
            generation).generation? other version = world.generation? other version :=
        fun generation other version different =>
          generation?_setGeneration_of_ne different world archive.version version generation
      dsimp only
      split
      · exact fun other version different => .inl (elsewhere _ other version different)
      · exact sweptElsewhere_land (elsewhere _)

/-- The platform package goes through. -/
def nativeOffers (answers : Answers) (package version platformPackage : List Char) : Bool :=
  (verifiedPlatform answers platformPackage version).isOk && answers.appManifest package

variable {name platformPackage : List Char}

variable (host world name destination) in
theorem installNative_landed
    (offered : nativeOffers answers package version platformPackage = true) :
    let after :=
      (installNative host answers world package name version platformPackage destination).2
    (∃ landing : Landing, landing.package = package ∧ landing.version = version ∧
      after.state.packages =
        world.state.packages.insert name (landing.record (world.package? name))) ∧
      after.links ≠ world.links := by
  obtain ⟨isVerified, registers⟩ := (Bool.and_eq_true _ _).mp offered
  cases verified : verifiedPlatform answers platformPackage version with
  | error error =>
      rw [verified] at isVerified
      cases isVerified
  | ok platform =>
      simp only [installNative, verified, registers, Bool.not_true, Bool.false_eq_true, if_false]
      exact ⟨⟨_, rfl, rfl, rfl⟩,
        World.links_publish_ne (keys_ne_nil platform.bins) (World.land _ _ _) _ _⟩

variable (host world name destination) in
theorem installNative_kept
    (nothing : nativeOffers answers package version platformPackage = false) :
    let after :=
      (installNative host answers world package name version platformPackage destination).2
    after.state = world.state ∧ after.links = world.links := by
  rw [installNative]
  cases verified : verifiedPlatform answers platformPackage version with
  | error error => exact ⟨rfl, rfl⟩
  | ok platform =>
      have unregistered : answers.appManifest package = false := by
        rw [nativeOffers, verified] at nothing
        exact nothing
      simp only [unregistered]
      exact ⟨rfl, rfl⟩

theorem installNative_swept : SweptElsewhere answers world name
    (installNative host answers world package name version platformPackage destination).2 := by
  rw [installNative]
  cases verifiedPlatform answers platformPackage version with
  | error error => exact fun _ _ _ => .inl rfl
  | ok platform =>
      have elsewhere : ∀ generation other otherVersion, other ≠ name →
          (world.setGeneration name version generation).generation? other otherVersion =
            world.generation? other otherVersion :=
        fun generation other otherVersion different =>
          generation?_setGeneration_of_ne different world version otherVersion generation
      dsimp only
      split
      · exact fun other otherVersion different => .inl (elsewhere _ other otherVersion different)
      · exact sweptElsewhere_land (elsewhere _)

/-- A step behind which only links converge and the pass may run. -/
theorem converged_frame (host : Host) (pinned : Prop) [Decidable pinned] (world : World)
    (bins : List (List Char)) (npmVersion : List Char) :
    (if pinned then world else convergeCliLinksToNewerDev host world bins npmVersion).state =
        world.state ∧
      (if pinned then world else convergeCliLinksToNewerDev host world bins npmVersion).generations =
        world.generations := by
  split
  · exact ⟨rfl, rfl⟩
  · exact convergeCliLinksToNewerDev_frame host world bins npmVersion

theorem sweptElsewhere_of_frame {before frame : World} {key : List Char}
    (sameState : before.state = frame.state)
    (sameGenerations : before.generations = frame.generations)
    (samePackages : ∀ other, other ≠ key → frame.package? other = world.package? other)
    (sameNames : ∀ other, other ≠ key → frame.generationNames other = world.generationNames other)
    (sameElsewhere : ∀ other version, other ≠ key →
      frame.generation? other version = world.generation? other version)
    (sameStamp : frame.state.lastAutoSweepMs = world.state.lastAutoSweepMs) :
    SweptElsewhere answers world key (autoSweepIfDue answers before) := by
  apply sweptElsewhere_autoSweepIfDue
  · intro other different
    rw [World.package?, sameState]
    exact samePackages other different
  · intro other different
    rw [World.generationNames, sameGenerations]
    exact sameNames other different
  · intro other version different
    rw [World.generation?, sameGenerations]
    exact sameElsewhere other version different
  · rw [sameState]
    exact sameStamp

theorem keepStaged_elsewhere {key other : List Char} (different : other ≠ key) (world : World)
    (package version : List Char) (staged : Staged) :
    (keepStaged world key package version staged).generationNames other =
        world.generationNames other ∧
      ∀ otherVersion, (keepStaged world key package version staged).generation? other otherVersion =
        world.generation? other otherVersion := by
  rw [keepStaged]
  split
  · exact ⟨rfl, fun _ => rfl⟩
  · exact ⟨generationNames_setGeneration_of_ne different world version _,
      fun otherVersion => generation?_setGeneration_of_ne different world version otherVersion _⟩

theorem state_keepStaged (world : World) (key package version : List Char) (staged : Staged) :
    (keepStaged world key package version staged).state = world.state := by
  rw [keepStaged]
  split
  · rfl
  · rfl

/-- A generation that is used again is not written. -/
theorem kept_frame (reused : Prop) [Decidable reused] (world : World)
    (key package version : List Char) (staged : Staged) :
    let kept := if reused then world else keepStaged world key package version staged
    kept.state = world.state ∧ ∀ other, other ≠ key →
      kept.generationNames other = world.generationNames other ∧
        ∀ otherVersion, kept.generation? other otherVersion =
          world.generation? other otherVersion := by
  dsimp only
  split
  · exact ⟨rfl, fun _ _ => ⟨rfl, fun _ => rfl⟩⟩
  · exact ⟨state_keepStaged world key package version staged, fun other different =>
      keepStaged_elsewhere different world package version staged⟩

/-- What npm staged lands, links are made and converge, and the pass may run. -/
theorem landed_spec (host : Host) (answers : Answers) {kept : World} {key : List Char}
    (keptState : kept.state = world.state)
    (keptElsewhere : ∀ other, other ≠ key →
      kept.generationNames other = world.generationNames other ∧
        ∀ otherVersion, kept.generation? other otherVersion =
          world.generation? other otherVersion)
    (landing : Landing) (content : List Char → Option Published) (bins : List (List Char))
    (version : List Char) (pinned : Prop) [Decidable pinned] :
    let published := (kept.land key landing).publish landing.destination content bins
    let after := autoSweepIfDue answers (if pinned then published
      else convergeCliLinksToNewerDev host published landing.bins.keys version)
    after.state.packages =
        world.state.packages.insert key (landing.record (world.package? key)) ∧
      SweptElsewhere answers world key after := by
  intro published after
  obtain ⟨sameState, sameGenerations⟩ :=
    converged_frame host pinned published landing.bins.keys version
  have publishedPackages : published.state.packages =
      world.state.packages.insert key (landing.record (world.package? key)) := by
    change kept.state.packages.insert key (landing.record (kept.state.packages.get? key)) = _
    rw [keptState]
    rfl
  constructor
  · rw [packages_autoSweepIfDue, sameState]
    exact publishedPackages
  · apply sweptElsewhere_of_frame sameState sameGenerations
    · intro other different
      rw [World.package?, publishedPackages]
      exact OrderedMap.get?_insert_of_ne different _ _
    · exact fun other different => (keptElsewhere other different).1
    · exact fun other version different => (keptElsewhere other different).2 version
    · change kept.state.lastAutoSweepMs = world.state.lastAutoSweepMs
      rw [keptState]

/-- Either nothing changes, or the version that the registry answers was not refused. -/
theorem installNpmPackage_spec (host : Host) (answers : Answers) (world : World)
    (package : List Char) (pin destination : Option (List Char)) :
    let after := (installNpmPackage host answers world package pin destination).2
    after = world ∨ ∃ manifest, answers.fetchManifest package pin = some manifest ∧
      ¬ Refuses world package pin manifest.version ∧
      Records world package manifest.version (npmKey world.state package) after ∧
      SweptElsewhere answers world (npmKey world.state package) after := by
  rw [installNpmPackage]
  cases isManifest : answers.fetchManifest package pin with
  | none => exact .inl rfl
  | some manifest =>
      dsimp only
      split
      · exact .inl rfl
      next notRefused =>
      have proceeds : ¬ Refuses world package pin manifest.version := by
        rintro ⟨unpinned, existing, isExisting, older⟩
        apply notRefused
        simp [unpinned, Option.mem_def.mp isExisting, older]
      split
      · right
        refine ⟨manifest, rfl, proceeds, .kept ?_, ?_⟩
        · dsimp only
          rw [packages_autoSweepIfDue, (converged_frame host _ world _ _).1]
        · obtain ⟨sameState, sameGenerations⟩ := converged_frame host
            (pinIsExplicit pin = true) world
            (((world.package? (npmKey world.state package)).map (·.bins.keys)).getD [])
            manifest.version
          exact sweptElsewhere_of_frame sameState sameGenerations (fun _ _ => rfl)
            (fun _ _ => rfl) (fun _ _ _ => rfl) rfl
      split
      · exact .inl rfl
      split
      · exact .inl rfl
      next staged isStaged =>
      split
      · exact .inl rfl
      split
      · exact .inl rfl
      right
      obtain ⟨keptState, keptElsewhere⟩ := kept_frame
        ((reusableGeneration answers world (npmKey world.state package) package
          manifest.version).isSome = true)
        world (npmKey world.state package) package manifest.version staged
      obtain ⟨inserted, swept⟩ := landed_spec host answers keptState keptElsewhere
        ⟨package, manifest.version, nestedBins staged.bins.table.keys,
          host.destination destination, "npm".toList, "npm:".toList ++ package⟩
        (nestedLink (npmKey world.state package) manifest.version) staged.bins.table.keys
        manifest.version (pinIsExplicit pin = true)
      exact ⟨manifest, rfl, proceeds, .landed _ rfl rfl inserted, swept⟩

/-! ## Routing -/

theorem routeFirstParty_cases (host : Host) (manifest : Manifest) (package name : List Char)
    (pin : Option (List Char)) :
    routeFirstParty host manifest package name pin = .refused .noPlatform ∨
      routeFirstParty host manifest package name pin = .npm package pin ∨
      ∃ platformPackage, routeFirstParty host manifest package name pin =
        .native package name manifest.version platformPackage := by
  rw [routeFirstParty]
  split
  · split_ifs <;> simp
  · dsimp only
    split_ifs <;> simp

/-- The ways that a spec which is not a tarball goes. -/
theorem route_cases (host : Host) (answers : Answers) {spec : List Char}
    (notTarball : tarballPrefix.isPrefixOf spec = false) :
    (∃ error, route host answers spec = .refused error) ∨
      ∃ package pin, expandPackage spec = .ok (package, pin) ∧
        (route host answers spec = .npm package pin ∨
          ∃ name manifest platformPackage, ygghqName package = some name ∧
            answers.fetchManifest package pin = some manifest ∧
            route host answers spec = .native package name manifest.version platformPackage) := by
  rw [route, notTarball, if_neg Bool.false_ne_true]
  cases expanded : expandPackage spec with
  | error error => exact .inl ⟨_, rfl⟩
  | ok found =>
      obtain ⟨package, pin⟩ := found
      dsimp only
      cases isName : ygghqName package with
      | none => exact .inr ⟨package, pin, rfl, .inl rfl⟩
      | some name =>
          dsimp only
          cases isManifest : answers.fetchManifest package pin with
          | none => exact .inl ⟨_, rfl⟩
          | some manifest =>
              rcases routeFirstParty_cases host manifest package name pin with
                refused | byNpm | ⟨platformPackage, native⟩
              · exact .inl ⟨_, refused⟩
              · exact .inr ⟨package, pin, rfl, .inl byNpm⟩
              · exact .inr ⟨package, pin, rfl,
                  .inr ⟨name, manifest, platformPackage, isName, isManifest, native⟩⟩

theorem route_of_tarball {spec : List Char} (isTarball : tarballPrefix.isPrefixOf spec = true) :
    route host answers spec = .tarball := by
  rw [route, if_pos isTarball]

/-- The package that a spec asks for. -/
def specPackage (answers : Answers) (spec : List Char) : Option (List Char) :=
  if tarballPrefix.isPrefixOf spec then (answers.fetchTarball spec).map (·.name)
  else match expandPackage spec with
    | .ok (package, _) => some package
    | .error _ => none

/-- Where a package may be recorded: under its key, under its first-party name, or where it was
found. -/
def MayRecord (world : World) (package key : List Char) : Prop :=
  key = packageStorageKey package ∨ ygghqName package = some key ∨
    findPackageKey world.state package = some key

theorem mayRecord_npmKey (world : World) (package : List Char) :
    MayRecord world package (npmKey world.state package) := by
  rw [npmKey]
  cases found : findPackageKey world.state package with
  | none => exact .inl rfl
  | some key => exact .inr (.inr found)

/-- An install touches one key, of the package that was asked for. -/
theorem installOneAt_effect (host : Host) (answers : Answers) (world : World) (spec : List Char)
    (destination : Option (List Char)) :
    let after := (installOneAt host answers world spec destination).2
    after = world ∨ ∃ package version key, specPackage answers spec = some package ∧
      MayRecord world package key ∧ Records world package version key after ∧
      SweptElsewhere answers world key after := by
  intro after
  cases isTarball : tarballPrefix.isPrefixOf spec with
  | true =>
      have installed : after = (installPrebuiltTarball host answers world spec destination).2 := by
        change (installOneAt host answers world spec destination).2 = _
        rw [installOneAt, route_of_tarball isTarball]
      cases fetched : answers.fetchTarball spec with
      | none =>
          left
          rw [installed, installPrebuiltTarball, verifiedArchive, fetched]
      | some archive =>
          right
          refine ⟨archive.name, archive.version, packageStorageKey archive.name, ?_, .inl rfl, ?_,
            installed ▸ installPrebuiltTarball_swept fetched⟩
          · rw [specPackage, if_pos isTarball, fetched]
            rfl
          · rw [installed]
            cases offered : tarballOffer answers spec with
            | none =>
                exact .kept (congrArg State.packages
                  (installPrebuiltTarball_kept host world destination offered).1)
            | some other =>
                obtain rfl : archive = other :=
                  Option.some.inj (fetched.symm.trans (fetchTarball_of_tarballOffer offered))
                obtain ⟨⟨landing, isPackage, isVersion, inserted⟩, _⟩ :=
                  installPrebuiltTarball_landed host world destination offered
                exact .landed landing isPackage isVersion inserted
  | false =>
      rcases route_cases host answers isTarball with
        ⟨error, isRoute⟩ | ⟨package, pin, expanded, found⟩
      · left
        change (installOneAt host answers world spec destination).2 = _
        rw [installOneAt, isRoute]
      have asksFor : specPackage answers spec = some package := by
        rw [specPackage, isTarball, expanded]
        rfl
      rcases found with isRoute | ⟨name, manifest, platformPackage, isName, isManifest, isRoute⟩
      · have installed :
            after = (installNpmPackage host answers world package pin destination).2 := by
          change (installOneAt host answers world spec destination).2 = _
          rw [installOneAt, isRoute]
        rcases installNpmPackage_spec host answers world package pin destination with
          same | ⟨manifest, isManifest, proceeds, records, swept⟩
        · exact .inl (installed.trans same)
        · right
          rw [← installed] at records swept
          exact ⟨package, manifest.version, npmKey world.state package, asksFor,
            mayRecord_npmKey world package, records, swept⟩
      · right
        have installed : after = (installNative host answers world package name manifest.version
            platformPackage destination).2 := by
          change (installOneAt host answers world spec destination).2 = _
          rw [installOneAt, isRoute]
        refine ⟨package, manifest.version, name, asksFor, .inr (.inl isName), ?_,
          installed ▸ installNative_swept⟩
        rw [installed]
        cases offered : nativeOffers answers package manifest.version platformPackage with
        | false =>
            exact .kept (congrArg State.packages
              (installNative_kept host world destination name offered).1)
        | true =>
            obtain ⟨⟨landing, isPackage, isVersion, inserted⟩, _⟩ :=
              installNative_landed host world destination name offered
            exact .landed landing isPackage isVersion inserted

end Ynpm
