import Yggterm.Ynpm.Effects

/-!
# Discovery and older versions

An install without an explicit pin takes what the registry answers.  Only the way through npm
refuses an older version.
-/

namespace Ynpm

/-! ## What a spec asks for -/

def specPin (spec : List Char) : Option (List Char) :=
  if tarballPrefix.isPrefixOf spec then none
  else match expandPackage spec with
    | .ok (_, pin) => pin
    | .error _ => none

/-- What the registry, or the archive, answers. -/
def answeredVersion (answers : Answers) (spec : List Char) : Option (List Char) :=
  if tarballPrefix.isPrefixOf spec then (answers.fetchTarball spec).map (·.version)
  else (specPackage answers spec).bind fun package =>
    (answers.fetchManifest package (specPin spec)).map (·.version)

/-- The recorded version does not fall, and an older answer changes no record and no link. -/
def NeverBackwards (host : Host) (answers : Answers) (world : World) (spec : List Char)
    (destination : Option (List Char)) : Prop :=
  let after := (installOneAt host answers world spec destination).2
  ∀ package ∈ specPackage answers spec, ∀ key ∈ findPackageKey world.state package,
    ∀ record ∈ world.package? key,
      (∃ laterKey ∈ findPackageKey after.state package, ∃ later ∈ after.package? laterKey,
        AtLeastAsNew record.current later.current) ∧
      ∀ version ∈ answeredVersion answers spec,
        downgradeRefusalNote record.current version = true →
          after.state.packages = world.state.packages ∧ after.links = world.links

/-- What goes through on a way that refuses nothing: a package and its version. -/
def unguardedOffer (host : Host) (answers : Answers) (spec : List Char) :
    Option (List Char × List Char) :=
  match route host answers spec with
  | .tarball => (tarballOffer answers spec).map fun archive => (archive.name, archive.version)
  | .native package _ version platformPackage =>
      if nativeOffers answers package version platformPackage then some (package, version)
      else none
  | .refused _ | .npm _ _ => none

/-- Such an offer is older than the record of its package. -/
def OffersOlder (host : Host) (answers : Answers) (world : World) (spec : List Char) : Prop :=
  ∃ offer ∈ unguardedOffer host answers spec, ∃ key ∈ findPackageKey world.state offer.1,
    ∃ record ∈ world.package? key, downgradeRefusalNote record.current offer.2 = true

/-! ## Records that stay or are written -/

variable {host : Host} {answers : Answers} {world after : World}
  {package version key : List Char} {record : Package}

/-- The record is there as it was. -/
theorem exists_later_of_same (samePackages : after.state.packages = world.state.packages)
    (isKey : findPackageKey world.state package = some key)
    (isRecord : world.package? key = some record) :
    ∃ laterKey ∈ findPackageKey after.state package, ∃ later ∈ after.package? laterKey,
      AtLeastAsNew record.current later.current := by
  refine ⟨key, ?_, record, ?_, atLeastAsNew_self record.current⟩
  · have same : findPackageKey after.state package = findPackageKey world.state package :=
      findPackageKey_congr fun _ _ _ => by rw [samePackages]
    exact same.trans isKey
  · rw [World.package?, samePackages]
    exact isRecord

/-- A version that is not older may be written, wherever the record of the package is. -/
theorem exists_later_of_landed {landing : Landing} {landingKey : List Char}
    (isPackage : landing.package = package)
    (inserted : after.state.packages = world.state.packages.insert landingKey
      (landing.record (world.package? landingKey)))
    (isKey : findPackageKey world.state package = some key)
    (isRecord : world.package? key = some record)
    (notOlder : downgradeRefusalNote record.current landing.version = false) :
    ∃ laterKey ∈ findPackageKey after.state package, ∃ later ∈ after.package? laterKey,
      AtLeastAsNew record.current later.current := by
  have named : (landing.record (world.package? landingKey)).packageName = some package :=
    congrArg some isPackage
  obtain ⟨found, isFound, rfl | ⟨different, already⟩⟩ := findPackageKey_insert inserted named
  · refine ⟨found, isFound, landing.record (world.package? found), ?_, ?_⟩
    · rw [World.package?, inserted]
      exact OrderedMap.get?_insert_self _ _ _
    · exact atLeastAsNew_iff.mpr notOlder
  · obtain rfl : key = found := Option.some.inj (isKey.symm.trans already)
    refine ⟨key, isFound, record, ?_, atLeastAsNew_self record.current⟩
    rw [World.package?, inserted, OrderedMap.get?_insert_of_ne different]
    exact isRecord

/-- Where a record landed whatever its version, nothing older may have been offered. -/
theorem forward_iff_of_landed {landing : Landing} {landingKey : List Char}
    (isPackage : landing.package = package) (isVersion : landing.version = version)
    (inserted : after.state.packages = world.state.packages.insert landingKey
      (landing.record (world.package? landingKey)))
    (published : after.links ≠ world.links)
    (isKey : findPackageKey world.state package = some key)
    (isRecord : world.package? key = some record) :
    ((∃ laterKey ∈ findPackageKey after.state package, ∃ later ∈ after.package? laterKey,
        AtLeastAsNew record.current later.current) ∧
      (downgradeRefusalNote record.current version = true →
        after.state.packages = world.state.packages ∧ after.links = world.links)) ↔
      downgradeRefusalNote record.current version = false := by
  constructor
  · rintro ⟨_, unchanged⟩
    by_contra older
    exact published (unchanged (by simpa using older)).2
  · intro notOlder
    refine ⟨exists_later_of_landed isPackage inserted isKey isRecord (isVersion ▸ notOlder), ?_⟩
    intro older
    rw [notOlder] at older
    cases older

/-- Where records and links stay, nothing is lost. -/
theorem neverBackwards_of_same {spec : List Char} {destination : Option (List Char)}
    (samePackages : (installOneAt host answers world spec destination).2.state.packages =
      world.state.packages)
    (sameLinks : (installOneAt host answers world spec destination).2.links = world.links) :
    NeverBackwards host answers world spec destination :=
  fun _ _ _ isKey _ isRecord =>
    ⟨exists_later_of_same samePackages isKey isRecord, fun _ _ _ => ⟨samePackages, sameLinks⟩⟩

/-- The way through npm refuses what is older. -/
theorem forward_of_npm (host : Host) (answers : Answers) {pin : Option (List Char)}
    (destination : Option (List Char)) (unpinned : pinIsExplicit pin = false)
    (isKey : findPackageKey world.state package = some key)
    (isRecord : world.package? key = some record) :
    let after := (installNpmPackage host answers world package pin destination).2
    (∃ laterKey ∈ findPackageKey after.state package, ∃ later ∈ after.package? laterKey,
      AtLeastAsNew record.current later.current) ∧
      ∀ manifest, answers.fetchManifest package pin = some manifest →
        downgradeRefusalNote record.current manifest.version = true →
          after.state.packages = world.state.packages ∧ after.links = world.links := by
  have isNpmKey : npmKey world.state package = key := by rw [npmKey, isKey, Option.getD_some]
  intro after
  rcases installNpmPackage_spec host answers world package pin destination with
    same | ⟨manifest, isManifest, proceeds, records, _⟩
  · have samePackages : after.state.packages = world.state.packages :=
      congrArg (fun world => world.state.packages) same
    have sameLinks : after.links = world.links := congrArg World.links same
    exact ⟨exists_later_of_same samePackages isKey isRecord, fun _ _ _ => ⟨samePackages, sameLinks⟩⟩
  · have notOlder : downgradeRefusalNote record.current manifest.version = false := by
      by_contra older
      apply proceeds
      refine ⟨unpinned, record, ?_, by simpa using older⟩
      rw [isNpmKey]
      exact isRecord
    constructor
    · cases records with
      | kept same => exact exists_later_of_same same isKey isRecord
      | landed landing isPackage isVersion inserted =>
          exact exists_later_of_landed isPackage inserted isKey isRecord (isVersion ▸ notOlder)
    · intro other isOther older
      obtain rfl : manifest = other := Option.some.inj (isManifest.symm.trans isOther)
      rw [notOlder] at older
      cases older

/-- What goes through on a way that refuses nothing must not be older. -/
theorem neverBackwards_iff_of_landed {spec : List Char} {destination : Option (List Char)}
    {landing : Landing} {landingKey : List Char}
    (asksFor : specPackage answers spec = some package)
    (answered : answeredVersion answers spec = some version)
    (offers : unguardedOffer host answers spec = some (package, version))
    (isPackage : landing.package = package) (isVersion : landing.version = version)
    (inserted : (installOneAt host answers world spec destination).2.state.packages =
      world.state.packages.insert landingKey (landing.record (world.package? landingKey)))
    (published : (installOneAt host answers world spec destination).2.links ≠ world.links) :
    NeverBackwards host answers world spec destination ↔ ¬ OffersOlder host answers world spec := by
  rw [NeverBackwards, OffersOlder, asksFor, answered, offers]
  constructor
  · rintro never ⟨offer, isOffer, key, isKey, record, isRecord, older⟩
    obtain rfl := Option.some.inj isOffer
    obtain ⟨later, unchanged⟩ := never package rfl key isKey record isRecord
    have notOlder := (forward_iff_of_landed isPackage isVersion inserted published isKey
      isRecord).mp ⟨later, unchanged version rfl⟩
    rw [notOlder] at older
    cases older
  · intro nothing other isOther key isKey record isRecord
    obtain rfl := Option.some.inj isOther
    have notOlder : downgradeRefusalNote record.current version = false := by
      by_contra older
      exact nothing ⟨_, rfl, key, isKey, record, isRecord, by simpa using older⟩
    obtain ⟨later, unchanged⟩ := (forward_iff_of_landed isPackage isVersion inserted published
      isKey isRecord).mpr notOlder
    refine ⟨later, ?_⟩
    intro answer isAnswer
    obtain rfl := Option.some.inj isAnswer
    exact unchanged

/-- A way that offers nothing and loses nothing. -/
theorem neverBackwards_iff_of_nothing {spec : List Char} {destination : Option (List Char)}
    (nothing : unguardedOffer host answers spec = none)
    (never : NeverBackwards host answers world spec destination) :
    NeverBackwards host answers world spec destination ↔ ¬ OffersOlder host answers world spec := by
  refine ⟨fun _ => ?_, fun _ => never⟩
  rintro ⟨offer, isOffer, _⟩
  rw [nothing] at isOffer
  cases isOffer

variable (host answers world) in
theorem neverBackwards_iff_of_tarball {spec : List Char} (destination : Option (List Char))
    (isTarball : tarballPrefix.isPrefixOf spec = true) :
    NeverBackwards host answers world spec destination ↔ ¬ OffersOlder host answers world spec := by
  have isRoute : route host answers spec = .tarball := route_of_tarball isTarball
  have installed : installOneAt host answers world spec destination =
      installPrebuiltTarball host answers world spec destination := by
    rw [installOneAt, isRoute]
  cases offered : tarballOffer answers spec with
  | none =>
      obtain ⟨sameState, sameLinks⟩ :=
        installPrebuiltTarball_kept host world destination offered
      rw [← installed] at sameState sameLinks
      apply neverBackwards_iff_of_nothing
      · rw [unguardedOffer, isRoute, offered]
        rfl
      · exact neverBackwards_of_same (congrArg State.packages sameState) sameLinks
  | some archive =>
      have fetched := fetchTarball_of_tarballOffer offered
      obtain ⟨⟨landing, isPackage, isVersion, inserted⟩, published⟩ :=
        installPrebuiltTarball_landed host world destination offered
      rw [← installed] at inserted published
      refine neverBackwards_iff_of_landed ?_ ?_ ?_ isPackage isVersion inserted published
      · rw [specPackage, if_pos isTarball, fetched]
        rfl
      · rw [answeredVersion, if_pos isTarball, fetched]
        rfl
      · rw [unguardedOffer, isRoute, offered]
        rfl

theorem neverBackwards_iff_of_npm {spec : List Char} {pin : Option (List Char)}
    (destination : Option (List Char)) (isRoute : route host answers spec = .npm package pin)
    (asksFor : specPackage answers spec = some package)
    (answered : answeredVersion answers spec =
      (answers.fetchManifest package pin).map (·.version))
    (unpinned : pinIsExplicit pin = false) :
    NeverBackwards host answers world spec destination ↔ ¬ OffersOlder host answers world spec := by
  have installed : installOneAt host answers world spec destination =
      installNpmPackage host answers world package pin destination := by
    rw [installOneAt, isRoute]
  apply neverBackwards_iff_of_nothing
  · rw [unguardedOffer, isRoute]
  · rw [NeverBackwards, asksFor, answered, installed]
    intro other isOther key isKey record isRecord
    obtain rfl := Option.some.inj isOther
    obtain ⟨later, unchanged⟩ := forward_of_npm host answers destination unpinned isKey isRecord
    refine ⟨later, ?_⟩
    intro version isVersion older
    obtain ⟨manifest, isManifest, rfl⟩ := Option.map_eq_some_iff.mp isVersion
    exact unchanged manifest isManifest older

theorem neverBackwards_iff_of_native {spec name platformPackage : List Char}
    (destination : Option (List Char))
    (isRoute : route host answers spec = .native package name version platformPackage)
    (asksFor : specPackage answers spec = some package)
    (answered : answeredVersion answers spec = some version) :
    NeverBackwards host answers world spec destination ↔ ¬ OffersOlder host answers world spec := by
  have installed : installOneAt host answers world spec destination =
      installNative host answers world package name version platformPackage destination := by
    rw [installOneAt, isRoute]
  cases offered : nativeOffers answers package version platformPackage with
  | false =>
      obtain ⟨sameState, sameLinks⟩ := installNative_kept host world destination name offered
      rw [← installed] at sameState sameLinks
      apply neverBackwards_iff_of_nothing
      · rw [unguardedOffer, isRoute]
        simp [offered]
      · exact neverBackwards_of_same (congrArg State.packages sameState) sameLinks
  | true =>
      obtain ⟨⟨landing, isPackage, isVersion, inserted⟩, published⟩ :=
        installNative_landed host world destination name offered
      rw [← installed] at inserted published
      refine neverBackwards_iff_of_landed asksFor answered ?_ isPackage isVersion inserted
        published
      rw [unguardedOffer, isRoute]
      simp [offered]

/-- Discovery never moves a host backwards, unless an older version goes through on a way that
refuses nothing. -/
theorem neverBackwards_iff (host : Host) (answers : Answers) (world : World) (spec : List Char)
    (destination : Option (List Char)) (unpinned : pinIsExplicit (specPin spec) = false) :
    NeverBackwards host answers world spec destination ↔ ¬ OffersOlder host answers world spec := by
  cases isTarball : tarballPrefix.isPrefixOf spec with
  | true => exact neverBackwards_iff_of_tarball host answers world destination isTarball
  | false =>
      rcases route_cases host answers isTarball with
        ⟨error, isRoute⟩ | ⟨package, pin, expanded, found⟩
      · have installed : (installOneAt host answers world spec destination).2 = world := by
          rw [installOneAt, isRoute]
        apply neverBackwards_iff_of_nothing
        · rw [unguardedOffer, isRoute]
        · apply neverBackwards_of_same <;> rw [installed]
      · have asksFor : specPackage answers spec = some package := by
          rw [specPackage, isTarball, expanded]
          rfl
        have isPin : specPin spec = pin := by
          rw [specPin, isTarball, expanded]
          rfl
        have answered : answeredVersion answers spec =
            (answers.fetchManifest package pin).map (·.version) := by
          rw [answeredVersion, isTarball, asksFor, isPin]
          rfl
        rcases found with isRoute | ⟨name, manifest, platformPackage, isName, isManifest, isRoute⟩
        · exact neverBackwards_iff_of_npm destination isRoute asksFor answered (isPin ▸ unpinned)
        · apply neverBackwards_iff_of_native destination isRoute asksFor
          rw [answered, isManifest]
          rfl

/-! ## A release behind its host -/

def installedRecord : Package where
  packageName := some "@ygghq/ychrome".toList
  current := "0.2.1".toList
  versions := ["0.2.1".toList]
  bins := ychromeBins.table
  destination := some fleetHost.dest
  dev := none
  devGeneration := none
  channel := some "npm".toList
  source := some "npm:@ygghq/ychrome".toList

/-- A host that has 0.2.1. -/
def aheadOfRegistry : World where
  state := ⟨OrderedMap.empty.insert "ychrome".toList installedRecord, none⟩
  generations := .empty
  links := []

/-- The way through the platform package installs what is older. -/
theorem not_neverBackwards_ychrome :
    ¬ NeverBackwards fleetHost (registryAnswering "0.2.0".toList) aheadOfRegistry
      "ychrome".toList none := by
  intro never
  obtain ⟨_, unchanged⟩ := never "@ygghq/ychrome".toList (by decide) "ychrome".toList
    (by decide) installedRecord (by decide)
  obtain ⟨_, sameLinks⟩ := unchanged "0.2.0".toList (by decide) (by decide)
  revert sameLinks
  decide

/-- The same answer of a package without a companion, as npm serves it. -/
def olderThroughNpm : Answers :=
  { registryAnswering "0.2.0".toList with fetchManifest := fun _ _ => some ⟨"0.2.0".toList, []⟩ }

theorem neverBackwards_ychrome_throughNpm :
    NeverBackwards fleetHost olderThroughNpm aheadOfRegistry "ychrome".toList none := by
  apply (neverBackwards_iff _ _ _ _ _ (by decide)).mpr
  rintro ⟨offer, isOffer, _⟩
  have nothing : unguardedOffer fleetHost olderThroughNpm "ychrome".toList = none := by
    decide
  rw [nothing] at isOffer
  cases isOffer

end Ynpm
