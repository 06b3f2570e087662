import Yggterm.Ynpm.Retention

/-!
# Installs

A spec is served from a prebuilt tarball, by npm, or from the platform package of a
first-party package; what goes through is recorded and published.
-/

namespace Ynpm

/-! ## Links that a newer dev build keeps -/

/-- The dev build of a bin that comes first among the records. -/
def devServing (state : State) (bin : List Char) : Option (SemVer × List Char × List Char) :=
  state.packages.entries.findSome? fun entry =>
    if entry.2.dev = none ∨ entry.2.bins.get? bin = none then none
    else (SemVer.parse entry.2.current).bind fun devSemver =>
      (entry.2.devGeneration.or (entry.2.dev.bind (·.generation))).map fun generation =>
        (devSemver, entry.1, generation)

def convergeCliLink (host : Host) (npmSemver : SemVer) (world : World) (bin : List Char) : World :=
  match devServing world.state bin with
  | none => world
  | some (devSemver, key, generation) =>
      if SemVer.cmpSemver devSemver npmSemver ≠ .gt then world
      else
        let source := world.generationBinary key generation bin
        if !world.isFile source then world
        else if world.published host.cliDir bin = some (.link source) then world
        else world.publish host.cliDir (fun _ => some (.link source)) [bin]

def convergeCliLinksToNewerDev (host : Host) (world : World) (bins : List (List Char))
    (npmVersion : List Char) : World :=
  match SemVer.parse npmVersion with
  | none => world
  | some npmSemver => bins.foldl (convergeCliLink host npmSemver) world

/-! ## From a prebuilt tarball -/

def tarballPrefix : List Char := "tarball:".toList

/-- The bins of a package whose binaries must name its version. -/
def verifyTrueAnswers (answers : Answers) (ships : List (List Char)) (version : List Char)
    (bins : List (List Char)) : Except YnpmError Unit :=
  verifyBins (fun bin =>
    if !ships.contains bin then .error (.missingBin bin)
    else match answers.runVersion (.staged bin) with
      | none => .error (.noAnswer bin)
      | some answer =>
          if versionAnswerMatchesIdentity answer version then .ok ()
          else .error (.untrueAnswer bin)) bins

/-- The archive behind a tarball spec, its binaries verified. -/
def verifiedArchive (answers : Answers) (spec : List Char) : Except YnpmError Archive :=
  match answers.fetchTarball spec with
  | none => .error .unpack
  | some archive =>
      match verifyTrueAnswers answers archive.ships archive.version archive.bins.table.keys with
      | .error error => .error error
      | .ok () => .ok archive

/-- Files put beside those that a generation has. -/
def Generation.withNested (generation : Option Generation) (files : List (List Char)) :
    Generation where
  nested := some (((generation.map (·.nestedFiles)).getD []) ++ files)
  flat := (generation.map (·.flat)).getD []
  manifest := generation.bind (·.manifest)

def Generation.withFlat (generation : Option Generation) (files : List (List Char)) :
    Generation where
  nested := generation.bind (·.nested)
  flat := ((generation.map (·.flat)).getD []) ++ files
  manifest := generation.bind (·.manifest)

/-- The link to a file in `bin/` of a generation. -/
def nestedLink (key version bin : List Char) : Option Published :=
  some (.link ⟨key, version, .nested, bin⟩)

def installPrebuiltTarball (host : Host) (answers : Answers) (world : World) (spec : List Char)
    (destination : Option (List Char)) : Except YnpmError InstallOutcome × World :=
  match verifiedArchive answers spec with
  | .error error => (.error error, world)
  | .ok archive =>
      let bins := archive.bins.table.keys
      let key := packageStorageKey archive.name
      let kept := world.setGeneration key archive.version
        (.withNested (world.generation? key archive.version) bins)
      if !answers.appManifest archive.name then (.error .appManifest, kept)
      else
        let landed := kept.land key
          { package := archive.name
            version := archive.version
            bins := nestedBins bins
            destination := host.destination destination
            channel := "tarball".toList
            source := (spec.takeWhile (· ≠ '#')) }
        (.ok ⟨archive.name, archive.version, (world.package? key).map (·.current), bins⟩,
          landed.publish (host.destination destination) (nestedLink key archive.version) bins)

/-! ## By npm -/

/-- A published generation that may serve again. -/
def reusableGeneration (answers : Answers) (world : World) (key package version : List Char) :
    Option Staged :=
  (world.generation? key version).bind fun generation =>
    generation.nested.bind fun files =>
      (generation.manifest.filter fun manifest => manifest.1 = package).bind fun manifest =>
        if manifest.2.table.keys.all fun bin =>
          (answers.runVersion (.kept key version bin)).isSome
        then some ⟨manifest.2, files⟩
        else none

def verifyStaged (runVersion : List Char → Option (List Char)) (staged : Staged) :
    Except YnpmError Unit :=
  verifyBins (fun bin =>
    if !staged.files.contains bin then .error (.missingBin bin)
    else match runVersion bin with
      | none => .error (.noAnswer bin)
      | some answer =>
          if Text.trim answer = [] then .error (.noAnswer bin) else .ok ()) staged.bins.table.keys

/-- The generation that a staged tree becomes, unless a complete one is there. -/
def keepStaged (world : World) (key package version : List Char) (staged : Staged) : World :=
  if (world.generation? key version).any (·.nested.isSome) then world
  else world.setGeneration key version
    { nested := some staged.files, flat := [], manifest := some (package, staged.bins) }

/-- The installed version is the one that the registry answers, and it runs. -/
def alreadyPublished (answers : Answers) (destination version : List Char) (existing : Package) :
    Bool :=
  existing.current == version && existing.destination == some destination &&
    existing.bins.keys.all fun bin => (answers.runVersion (.published destination bin)).isSome

/-- Where npm records a package. -/
def npmKey (state : State) (package : List Char) : List Char :=
  (findPackageKey state package).getD (packageStorageKey package)

def installNpmPackage (host : Host) (answers : Answers) (world : World) (package : List Char)
    (pin : Option (List Char)) (destination : Option (List Char)) :
    Except YnpmError InstallOutcome × World :=
  match answers.fetchManifest package pin with
  | none => (.error .registry, world)
  | some manifest =>
      let version := manifest.version
      let dest := host.destination destination
      let key := npmKey world.state package
      let existing := world.package? key
      if !pinIsExplicit pin && existing.any fun existing =>
          downgradeRefusalNote existing.current version then
        (.ok ⟨package, (existing.map (·.current)).getD [], none,
          (existing.map (·.bins.keys)).getD []⟩, world)
      else if existing.any (alreadyPublished answers dest version) then
        let bins := (existing.map (·.bins.keys)).getD []
        let converged := if pinIsExplicit pin then world
          else convergeCliLinksToNewerDev host world bins version
        (.ok ⟨package, version, existing.map (·.current), bins⟩, autoSweepIfDue answers converged)
      else
        let reused := reusableGeneration answers world key package version
        if !answers.headroom then (.error .headroom, world)
        else match reused.or (answers.npmInstall package version) with
          | none => (.error .npmInstall, world)
          | some staged =>
              if !answers.appManifest package then (.error .appManifest, world)
              else
                let program := if reused.isSome then Program.kept key version else .staged
                match verifyStaged (answers.runVersion ∘ program) staged with
                | .error error => (.error error, world)
                | .ok () =>
                    let bins := staged.bins.table.keys
                    let kept := if reused.isSome then world
                      else keepStaged world key package version staged
                    let landed := kept.land key
                      { package := package
                        version := version
                        bins := nestedBins bins
                        destination := dest
                        channel := "npm".toList
                        source := "npm:".toList ++ package }
                    let published := landed.publish dest (nestedLink key version) bins
                    let converged := if pinIsExplicit pin then published
                      else convergeCliLinksToNewerDev host published (nestedBins bins).keys version
                    (.ok ⟨package, version, existing.map (·.current), bins⟩,
                      autoSweepIfDue answers converged)

/-! ## From the platform package -/

/-- The platform package in lockstep with its package, its binaries verified. -/
def verifiedPlatform (answers : Answers) (platformPackage version : List Char) :
    Except YnpmError PlatformPackage :=
  match answers.fetchManifest platformPackage (some version) with
  | none => .error .registry
  | some manifest =>
      if manifest.version ≠ version then .error .platformDisagrees
      else match answers.unpackPlatform platformPackage version with
        | none => .error .unpack
        | some platform =>
            match platform.version with
            | none => .error .noVersion
            | some platformVersion =>
                match verifyTrueAnswers answers platform.ships platformVersion
                    platform.bins.table.keys with
                | .error error => .error error
                | .ok () => .ok platform

def installNative (host : Host) (answers : Answers) (world : World)
    (package name version platformPackage : List Char) (destination : Option (List Char)) :
    Except YnpmError InstallOutcome × World :=
  match verifiedPlatform answers platformPackage version with
  | .error error => (.error error, world)
  | .ok platform =>
      let bins := platform.bins.table.keys
      let kept := world.setGeneration name version
        (.withFlat (world.generation? name version) bins)
      if !answers.appManifest package then (.error .appManifest, kept)
      else
        let landed := kept.land name
          { package := package
            version := version
            bins := platform.bins.table
            destination := host.destination destination
            channel := "npm".toList
            source := "npm:".toList ++ package }
        (.ok ⟨name, version, (world.package? name).map (·.current), bins⟩,
          landed.publish (host.destination destination)
            (fun bin => some (.copy ⟨name, version, .flat, bin⟩)) bins)

/-! ## Routing -/

inductive Route where
  | refused (error : YnpmError)
  | tarball
  | npm (package : List Char) (pin : Option (List Char))
  | native (package name version platformPackage : List Char)
  deriving DecidableEq

/-- Which way a first-party package goes depends on the host and on its manifest. -/
def routeFirstParty (host : Host) (manifest : Manifest) (package name : List Char)
    (pin : Option (List Char)) : Route :=
  match platformTarget host.os host.machine with
  | none =>
      if manifest.optionalDependencies.any ((package ++ ['-']).isPrefixOf ·) then
        .refused .noPlatform
      else .npm package pin
  | some platform =>
      let platformPackage := package ++ '-' :: platform
      if manifest.optionalDependencies.contains platformPackage then
        .native package name manifest.version platformPackage
      else .npm package pin

def route (host : Host) (answers : Answers) (spec : List Char) : Route :=
  if tarballPrefix.isPrefixOf spec then .tarball
  else match expandPackage spec with
    | .error error => .refused (.name error)
    | .ok (package, pin) =>
        match ygghqName package with
        | none => .npm package pin
        | some name =>
            match answers.fetchManifest package pin with
            | none => .refused .registry
            | some manifest => routeFirstParty host manifest package name pin

def installOneAt (host : Host) (answers : Answers) (world : World) (spec : List Char)
    (destination : Option (List Char)) : Except YnpmError InstallOutcome × World :=
  match route host answers spec with
  | .refused error => (.error error, world)
  | .tarball => installPrebuiltTarball host answers world spec destination
  | .npm package pin => installNpmPackage host answers world package pin destination
  | .native package name version platformPackage =>
      installNative host answers world package name version platformPackage destination

/-! ## Releases of one package -/

def ychromeBins : ParsedBins where
  table := OrderedMap.empty.insert "ychrome".toList "bin/ychrome".toList
  nonempty := List.cons_ne_nil _ _

def fleetHost : Host where
  os := "linux".toList
  machine := "x86_64".toList
  dest := "/home/.local/bin".toList
  cliDir := "/home/.yggterm/ynpm/bin".toList
  absolutePath := id

/-- A registry that answers this version, with a companion for the host, and honest binaries. -/
def registryAnswering (version : List Char) : Answers where
  fetchManifest _ _ := some ⟨version, ["@ygghq/ychrome-linux-x64".toList]⟩
  unpackPlatform _ _ := some ⟨some version, ychromeBins, ["ychrome".toList]⟩
  npmInstall _ _ := none
  fetchTarball _ := none
  runVersion _ := some version
  appManifest _ := true
  headroom := true
  now := 0
  spares _ _ := false
  liveUnder _ := false

end Ynpm
