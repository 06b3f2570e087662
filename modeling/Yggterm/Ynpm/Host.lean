import Mathlib.Data.Prod.Lex
import Yggterm.Ynpm.Packages

/-!
# The host under ynpm

The records, the generations on disk and the binaries that were published, newest first.
What the registry, the archives and the binaries answer during one call is a value of its own.
-/

namespace Ynpm

/-! ## Generations -/

/-- What `parse_bin_table` answers is not empty. -/
structure ParsedBins where
  table : BinTable
  nonempty : table.entries ≠ []

/-- The files of a generation: those in `bin/`, those at its root, and the bin table of the
package that npm installed there. -/
structure Generation where
  nested : Option (List (List Char))
  flat : List (List Char)
  manifest : Option (List Char × ParsedBins)

inductive Place where
  | nested
  | flat
  deriving DecidableEq

def Generation.nestedFiles (generation : Generation) : List (List Char) :=
  generation.nested.getD []

/-- `generation_binary`. -/
def Generation.binary (generation : Generation) (bin : List Char) : Place :=
  if generation.nestedFiles.contains bin then .nested else .flat

def Generation.isFile (generation : Generation) (bin : List Char) : Place → Bool
  | .nested => generation.nestedFiles.contains bin
  | .flat => generation.flat.contains bin

/-- A file of the generation `generations/<key>/<version>`. -/
structure Source where
  key : List Char
  version : List Char
  place : Place
  bin : List Char
  deriving DecidableEq

inductive Published where
  | link (source : Source)
  | copy (source : Source)
  deriving DecidableEq

/-- What was put at `destination/bin`, or that it was removed. -/
structure Publication where
  destination : List Char
  bin : List Char
  content : Option Published
  deriving DecidableEq

structure World where
  state : State
  generations : OrderedMap (List Char ×ₗ List Char) Generation
  links : List Publication

namespace World

def package? (world : World) (key : List Char) : Option Package := world.state.packages.get? key

def generation? (world : World) (key version : List Char) : Option Generation :=
  world.generations.get? (toLex (key, version))

def setGeneration (world : World) (key version : List Char) (generation : Generation) : World :=
  { world with generations := world.generations.insert (toLex (key, version)) generation }

def generationBinary (world : World) (key version bin : List Char) : Source :=
  ⟨key, version, ((world.generation? key version).map (·.binary bin)).getD .flat, bin⟩

def isFile (world : World) (source : Source) : Bool :=
  (world.generation? source.key source.version).any (·.isFile source.bin source.place)

def published (world : World) (destination bin : List Char) : Option Published :=
  (world.links.find? fun link => link.destination = destination ∧ link.bin = bin).bind (·.content)

/-- One publication for each bin. -/
def publish (world : World) (destination : List Char) (content : List Char → Option Published)
    (bins : List (List Char)) : World :=
  { world with
    links := (bins.map fun bin => ⟨destination, bin, content bin⟩).reverse ++ world.links }

@[simp]
theorem state_setGeneration (world : World) (key version : List Char) (generation : Generation) :
    (world.setGeneration key version generation).state = world.state := rfl

@[simp]
theorem links_setGeneration (world : World) (key version : List Char) (generation : Generation) :
    (world.setGeneration key version generation).links = world.links := rfl

@[simp]
theorem state_publish (world : World) (destination : List Char)
    (content : List Char → Option Published) (bins : List (List Char)) :
    (world.publish destination content bins).state = world.state := rfl

@[simp]
theorem generations_publish (world : World) (destination : List Char)
    (content : List Char → Option Published) (bins : List (List Char)) :
    (world.publish destination content bins).generations = world.generations := rfl

/-- What is published of a bin is what was published last. -/
theorem published_publish {bins : List (List Char)} {bin : List Char} (member : bin ∈ bins)
    (world : World) (destination : List Char) (content : List Char → Option Published) :
    (world.publish destination content bins).published destination bin = content bin := by
  have located : ((bins.map fun bin => (⟨destination, bin, content bin⟩ : Publication)).reverse ++
      world.links).find? (fun link => link.destination = destination ∧ link.bin = bin) =
        some ⟨destination, bin, content bin⟩ := by
    rw [List.find?_append]
    cases found :
      (bins.map fun bin => (⟨destination, bin, content bin⟩ : Publication)).reverse.find?
        (fun link => link.destination = destination ∧ link.bin = bin) with
    | none =>
        have rejected := List.find?_eq_none.mp found ⟨destination, bin, content bin⟩
        simp [member] at rejected
    | some link =>
        have isLink := List.mem_reverse.mp (List.mem_of_find?_eq_some found)
        obtain ⟨other, _, rfl⟩ := List.mem_map.mp isLink
        have isBin : other = bin := by simpa using List.find?_some found
        rw [isBin]
        rfl
  rw [published, publish, located]
  rfl

/-- A publication of some bin is seen. -/
theorem links_publish_ne {bins : List (List Char)} (nonempty : bins ≠ []) (world : World)
    (destination : List Char) (content : List Char → Option Published) :
    (world.publish destination content bins).links ≠ world.links := by
  intro same
  have lengths := congrArg List.length same
  have positive := List.length_pos_iff.mpr nonempty
  simp only [publish, List.length_append, List.length_reverse, List.length_map] at lengths
  omega

end World

/-! ## The process and what it is answered -/

structure Host where
  os : List Char
  machine : List Char
  dest : List Char
  cliDir : List Char
  absolutePath : List Char → List Char

def Host.destination (host : Host) (destination : Option (List Char)) : List Char :=
  (destination.map host.absolutePath).getD host.dest

/-- `package_destination`. -/
def Host.packageDestination (host : Host) (package : Package) : List Char :=
  match package.destination with
  | some value => if Text.trim value = [] then host.dest else host.absolutePath value
  | none => host.dest

def platformTarget (os machine : List Char) : Option (List Char) :=
  if os.map Char.toLower = "linux".toList then
    if machine = "x86_64".toList then some "linux-x64".toList
    else if machine = "aarch64".toList ∨ machine = "arm64".toList then some "linux-arm64".toList
    else none
  else none

structure Manifest where
  version : List Char
  optionalDependencies : List (List Char)

/-- The unpacked platform package; `ships` are the bins whose file is there. -/
structure PlatformPackage where
  version : Option (List Char)
  bins : ParsedBins
  ships : List (List Char)

/-- What npm staged. -/
structure Staged where
  bins : ParsedBins
  files : List (List Char)

/-- The unpacked archive of a tarball. -/
structure Archive where
  name : List Char
  version : List Char
  bins : ParsedBins
  ships : List (List Char)

inductive Program where
  | published (destination bin : List Char)
  | kept (key version bin : List Char)
  | staged (bin : List Char)

structure Answers where
  fetchManifest : List Char → Option (List Char) → Option Manifest
  unpackPlatform : List Char → List Char → Option PlatformPackage
  npmInstall : List Char → List Char → Option Staged
  fetchTarball : List Char → Option Archive
  runVersion : Program → Option (List Char)
  appManifest : List Char → Bool
  headroom : Bool
  now : Nat
  spares : List Char → List Char → Bool
  liveUnder : List Char → Bool

inductive YnpmError where
  | name (error : NameError)
  | registry
  | noPlatform
  | platformDisagrees
  | unpack
  | noVersion
  | missingBin (bin : List Char)
  | noAnswer (bin : List Char)
  | untrueAnswer (bin : List Char)
  | appManifest
  | headroom
  | npmInstall
  | noBins
  | notRecorded
  | noGeneration
  | live
  deriving DecidableEq

structure InstallOutcome where
  name : List Char
  version : List Char
  previous : Option (List Char)
  bins : List (List Char)
  deriving DecidableEq

/-- The first bin that is not verified stops the check. -/
def verifyBins (verify : List Char → Except YnpmError Unit) :
    List (List Char) → Except YnpmError Unit
  | [] => .ok ()
  | bin :: rest =>
      match verify bin with
      | .ok () => verifyBins verify rest
      | .error error => .error error

/-! ## Records -/

/-- What an install writes into the record. -/
structure Landing where
  package : List Char
  version : List Char
  bins : BinTable
  destination : List Char
  channel : List Char
  source : List Char

def Landing.versions (existing : Option Package) (landing : Landing) : List (List Char) :=
  let versions := (existing.map (·.versions)).getD []
  if versions.getLast? = some landing.version then versions else versions ++ [landing.version]

def Landing.record (existing : Option Package) (landing : Landing) : Package where
  packageName := some landing.package
  current := landing.version
  versions := landing.versions existing
  bins := landing.bins
  destination := some landing.destination
  dev := none
  devGeneration := none
  channel := some landing.channel
  source := some landing.source

def World.setPackage (world : World) (key : List Char) (package : Package) : World :=
  { world with
    state := { world.state with packages := world.state.packages.insert key package } }

def World.land (world : World) (key : List Char) (landing : Landing) : World :=
  world.setPackage key (landing.record (world.package? key))

/-- The names of a bin table under `bin/`. -/
def nestedBins (names : List (List Char)) : BinTable :=
  names.foldl (fun table name => table.insert name ("bin/".toList ++ name)) .empty

theorem Landing.version_mem_versions (existing : Option Package) (landing : Landing) :
    landing.version ∈ landing.versions existing := by
  rw [versions]
  split
  · next isLast => exact List.mem_of_getLast? isLast
  · exact List.mem_append_right _ List.mem_cons_self

end Ynpm
