import Yggterm.Ynpm.Effects

/-!
# The links that converge to a dev build

Of the dev builds that serve a bin the first one is looked at, and no other one where that is not
newer or not on disk.
-/

namespace Ynpm

/-- `dev_generation`, or the generation of the marker. -/
def Package.servedGeneration (record : Package) : Option (List Char) :=
  record.devGeneration.or (record.dev.bind (·.generation))

/-- A dev build that can stand for the bin. -/
structure Package.Orderable (record : Package) (bin : List Char) : Prop where
  isDev : record.dev ≠ none
  serves : record.bins.get? bin ≠ none
  parses : SemVer.parse record.current ≠ none
  generation : record.servedGeneration ≠ none

/-- The binary of a dev build that is newer than the version from npm; it is on disk. -/
structure NewerBinary (world : World) (npmSemver : SemVer) (bin : List Char)
    (entry : List Char × Package) (source : Source) : Prop where
  isDev : entry.2.dev ≠ none
  newer : ∃ semver ∈ SemVer.parse entry.2.current, SemVer.cmpSemver semver npmSemver = .gt
  isBinary : ∃ generation ∈ entry.2.servedGeneration,
    source = world.generationBinary entry.1 generation bin
  onDisk : world.isFile source = true

/-- No bin that a newer dev build serves is handed back. -/
def KeepsNewerDev (host : Host) (bins : List (List Char)) (npmVersion : List Char)
    (before after : World) : Prop :=
  ∀ npmSemver ∈ SemVer.parse npmVersion, ∀ bin ∈ bins,
    (∃ entry ∈ before.state.packages.entries, entry.2.bins.get? bin ≠ none ∧
      ∃ source, NewerBinary before npmSemver bin entry source) →
    ∃ entry ∈ before.state.packages.entries, ∃ source,
      NewerBinary before npmSemver bin entry source ∧
        after.published host.cliDir bin = some (.link source)

/-! ## The first dev build of a bin -/

/-- What a record answers when it is looked at. -/
def serving (bin : List Char) (entry : List Char × Package) :
    Option (SemVer × List Char × List Char) :=
  if entry.2.dev = none ∨ entry.2.bins.get? bin = none then none
  else (SemVer.parse entry.2.current).bind fun devSemver =>
    entry.2.servedGeneration.map fun generation => (devSemver, entry.1, generation)

theorem devServing_eq (state : State) (bin : List Char) :
    devServing state bin = state.packages.entries.findSome? (serving bin) := rfl

theorem serving_eq_some_iff {bin : List Char} {entry : List Char × Package}
    {devSemver : SemVer} {key generation : List Char} :
    serving bin entry = some (devSemver, key, generation) ↔
      (entry.2.dev ≠ none ∧ entry.2.bins.get? bin ≠ none) ∧
        SemVer.parse entry.2.current = some devSemver ∧
          entry.2.servedGeneration = some generation ∧ entry.1 = key := by
  rw [serving, Option.ite_none_left_eq_some, not_or, Option.bind_eq_some_iff]
  refine and_congr_right fun _ => ?_
  simp only [Option.map_eq_some_iff, Prod.mk.injEq]
  constructor
  · rintro ⟨_, parsed, _, isGeneration, rfl, rfl, rfl⟩
    exact ⟨parsed, isGeneration, rfl⟩
  · rintro ⟨parsed, isGeneration, rfl⟩
    exact ⟨devSemver, parsed, generation, isGeneration, rfl, rfl, rfl⟩

theorem serving_eq_none_iff {bin : List Char} {entry : List Char × Package} :
    serving bin entry = none ↔ ¬ entry.2.Orderable bin := by
  rw [← not_iff_not, not_not, ← Ne, Option.ne_none_iff_exists']
  constructor
  · rintro ⟨⟨devSemver, key, generation⟩, serves⟩
    obtain ⟨⟨isDev, inBins⟩, parsed, isGeneration, _⟩ := serving_eq_some_iff.mp serves
    exact ⟨isDev, inBins, by simp [parsed], by simp [isGeneration]⟩
  · rintro ⟨isDev, inBins, parses, generates⟩
    obtain ⟨devSemver, parsed⟩ := Option.ne_none_iff_exists'.mp parses
    obtain ⟨generation, isGeneration⟩ := Option.ne_none_iff_exists'.mp generates
    exact ⟨_, serving_eq_some_iff.mpr ⟨⟨isDev, inBins⟩, parsed, isGeneration, rfl⟩⟩

/-- The link that a bin is given, if it is given one. -/
def keptLink (npmSemver : SemVer) (world : World) (bin : List Char) : Option Source :=
  (devServing world.state bin).bind fun serves =>
    let source := world.generationBinary serves.2.1 serves.2.2 bin
    if SemVer.cmpSemver serves.1 npmSemver = .gt ∧ world.isFile source = true then some source
    else none

/-- A newer dev build stands before the others that can stand for the bin. -/
def FirstIsNewer (world : World) (npmSemver : SemVer) (bin : List Char) (source : Source) : Prop :=
  ∃ front entry back, world.state.packages.entries = front ++ entry :: back ∧
    (∀ other ∈ front, ¬ other.2.Orderable bin) ∧ entry.2.bins.get? bin ≠ none ∧
      NewerBinary world npmSemver bin entry source

theorem keptLink_eq_some_iff {npmSemver : SemVer} {world : World} {bin : List Char}
    {source : Source} :
    keptLink npmSemver world bin = some source ↔ FirstIsNewer world npmSemver bin source := by
  rw [keptLink, devServing_eq, Option.bind_eq_some_iff]
  constructor
  · rintro ⟨⟨devSemver, key, generation⟩, first, kept⟩
    obtain ⟨front, entry, back, isEntries, serves, none⟩ := List.findSome?_eq_some_iff.mp first
    rw [Option.ite_none_right_eq_some, Option.some.injEq] at kept
    obtain ⟨⟨newer, onDisk⟩, rfl⟩ := kept
    obtain ⟨⟨isDev, inBins⟩, parsed, isGeneration, rfl⟩ := serving_eq_some_iff.mp serves
    exact ⟨front, entry, back, isEntries, fun other member => serving_eq_none_iff.mp
      (none other member), inBins, isDev, ⟨devSemver, parsed, newer⟩,
      ⟨generation, isGeneration, rfl⟩, onDisk⟩
  · rintro ⟨front, entry, back, isEntries, none, inBins, isDev, ⟨devSemver, parsed, newer⟩,
      ⟨generation, isGeneration, rfl⟩, onDisk⟩
    refine ⟨(devSemver, entry.1, generation), ?_, if_pos ⟨newer, onDisk⟩⟩
    exact List.findSome?_eq_some_iff.mpr ⟨front, entry, back, isEntries,
      serving_eq_some_iff.mpr ⟨⟨isDev, inBins⟩, parsed, isGeneration, rfl⟩,
      fun other member => serving_eq_none_iff.mpr (none other member)⟩

/-! ## The links afterwards -/

theorem published_publish_of_ne {bin other : List Char} (different : bin ≠ other) (world : World)
    (destination : List Char) (content : List Char → Option Published) :
    (world.publish destination content [other]).published destination bin =
      world.published destination bin := by
  have skipped : ((⟨destination, other, content other⟩ : Publication) :: world.links).find?
      (fun link => link.destination = destination ∧ link.bin = bin) =
        world.links.find? fun link => link.destination = destination ∧ link.bin = bin := by
    rw [List.find?_cons_of_neg]
    simp [different.symm]
  exact congrArg (fun found : Option Publication => found.bind (·.content)) skipped

theorem published_convergeCliLink (host : Host) (npmSemver : SemVer) (world : World)
    (bin other : List Char) :
    (convergeCliLink host npmSemver world other).published host.cliDir bin =
      if bin = other then
        ((keptLink npmSemver world bin).map .link).or (world.published host.cliDir bin)
      else world.published host.cliDir bin := by
  by_cases same : bin = other
  · subst same
    rw [if_pos rfl, convergeCliLink, keptLink]
    cases serves : devServing world.state bin with
    | none => rfl
    | some first =>
        obtain ⟨devSemver, key, generation⟩ := first
        rw [Option.bind_some]
        dsimp only
        by_cases newer : SemVer.cmpSemver devSemver npmSemver = .gt
        · by_cases onDisk : world.isFile (world.generationBinary key generation bin) = true
          · have notMissing :
                ¬ (!world.isFile (world.generationBinary key generation bin)) = true := by
              simp [onDisk]
            rw [if_neg (not_not.mpr newer), if_neg notMissing, if_pos (And.intro newer onDisk)]
            split
            · next already => exact already
            · exact World.published_publish (List.mem_singleton_self bin) world host.cliDir _
          · have missing :
                (!world.isFile (world.generationBinary key generation bin)) = true := by
              simp [onDisk]
            rw [if_neg (not_not.mpr newer), if_pos missing, if_neg fun both => onDisk both.2]
            rfl
        · rw [if_pos newer, if_neg fun both => newer both.1]
          rfl
  · rw [if_neg same, convergeCliLink]
    split
    · rfl
    · dsimp only
      split_ifs
      · rfl
      · rfl
      · rfl
      · exact published_publish_of_ne same world host.cliDir _

theorem keptLink_congr {npmSemver : SemVer} {world after : World}
    (sameState : after.state = world.state)
    (sameGenerations : after.generations = world.generations) (bin : List Char) :
    keptLink npmSemver after bin = keptLink npmSemver world bin := by
  obtain ⟨state, generations, links⟩ := world
  subst sameState sameGenerations
  rfl

/-- A bin of the table is given its link, and keeps the one that it has where it is given none. -/
theorem published_convergeCliLinks (host : Host) (npmSemver : SemVer) (bins : List (List Char))
    (world : World) (bin : List Char) :
    (bins.foldl (convergeCliLink host npmSemver) world).published host.cliDir bin =
      if bin ∈ bins then
        ((keptLink npmSemver world bin).map .link).or (world.published host.cliDir bin)
      else world.published host.cliDir bin := by
  induction bins generalizing world with
  | nil => rfl
  | cons first rest inductionHypothesis =>
      obtain ⟨sameState, sameGenerations⟩ := convergeCliLink_frame host npmSemver world first
      rw [List.foldl_cons, inductionHypothesis, keptLink_congr sameState sameGenerations,
        published_convergeCliLink]
      by_cases here : bin = first
      · have member : bin ∈ first :: rest := List.mem_cons.mpr (.inl here)
        rw [if_pos here, if_pos member]
        split
        · rw [← Option.or_assoc, Option.or_self]
        · rfl
      · simp only [List.mem_cons, here, if_false, false_or]

/-- A bin keeps its newer dev build just where the first dev build that can stand for it is newer,
or where it is linked to a newer one already. -/
theorem keepsNewerDev_iff (host : Host) (world : World) (bins : List (List Char))
    (npmVersion : List Char) :
    KeepsNewerDev host bins npmVersion world
        (convergeCliLinksToNewerDev host world bins npmVersion) ↔
      ∀ npmSemver ∈ SemVer.parse npmVersion, ∀ bin ∈ bins,
        (∃ entry ∈ world.state.packages.entries, entry.2.bins.get? bin ≠ none ∧
          ∃ source, NewerBinary world npmSemver bin entry source) →
        (∃ source, FirstIsNewer world npmSemver bin source) ∨
          ∃ entry ∈ world.state.packages.entries, ∃ source,
            NewerBinary world npmSemver bin entry source ∧
              world.published host.cliDir bin = some (.link source) := by
  refine forall₄_congr fun npmSemver isNpm bin member => imp_congr_right fun _ => ?_
  have isAfter : (convergeCliLinksToNewerDev host world bins npmVersion).published host.cliDir bin =
      ((keptLink npmSemver world bin).map .link).or (world.published host.cliDir bin) := by
    rw [convergeCliLinksToNewerDev, Option.mem_def.mp isNpm]
    exact (published_convergeCliLinks host npmSemver bins world bin).trans (if_pos member)
  rw [isAfter]
  cases kept : keptLink npmSemver world bin with
  | none =>
      have notFirst : ¬ ∃ source, FirstIsNewer world npmSemver bin source := by
        rintro ⟨source, first⟩
        rw [keptLink_eq_some_iff.mpr first] at kept
        cases kept
      rw [or_iff_right notFirst]
      rfl
  | some source =>
      obtain ⟨front, entry, back, isEntries, _, _, newer⟩ := keptLink_eq_some_iff.mp kept
      refine iff_of_true ⟨entry, ?_, source, newer, rfl⟩
        (.inl ⟨source, keptLink_eq_some_iff.mp kept⟩)
      rw [isEntries]
      exact List.mem_append_right _ List.mem_cons_self

/-! ## Two dev builds of one command -/

def toolRecord (current : String) : Package where
  packageName := none
  current := current.toList
  versions := [current.toList]
  bins := OrderedMap.empty.insert "tool".toList "bin/tool".toList
  destination := none
  dev := some ⟨some "dev".toList⟩
  devGeneration := some "dev".toList
  channel := none
  source := none

/-- An old dev build stands before a new one that is on disk. -/
def twoDevBuilds : World where
  state := ⟨(OrderedMap.empty.insert "alpha".toList (toolRecord "1.0.0")).insert "beta".toList
    (toolRecord "3.0.0"), none⟩
  generations := OrderedMap.empty.insert (toLex ("beta".toList, "dev".toList))
    ⟨some ["tool".toList], [], none⟩
  links := []

theorem not_keepsNewerDev_twoDevBuilds : ¬ ∀ (host : Host) (world : World)
    (bins : List (List Char)) (npmVersion : List Char),
      KeepsNewerDev host bins npmVersion world
        (convergeCliLinksToNewerDev host world bins npmVersion) := by
  intro claimed
  have isNpm : SemVer.parse "2.0.0".toList = some ⟨2, 0, 0, none⟩ := by decide
  have newer : NewerBinary twoDevBuilds ⟨2, 0, 0, none⟩ "tool".toList
      ("beta".toList, toolRecord "3.0.0") ⟨"beta".toList, "dev".toList, .nested, "tool".toList⟩ :=
    { isDev := Option.some_ne_none _
      newer := ⟨⟨3, 0, 0, none⟩, by decide, by decide⟩
      isBinary := ⟨"dev".toList, rfl, by decide⟩
      onDisk := by decide }
  obtain ⟨_, _, source, _, linked⟩ := claimed fleetHost twoDevBuilds ["tool".toList]
    "2.0.0".toList _ isNpm _ (List.mem_singleton_self _)
    ⟨("beta".toList, toolRecord "3.0.0"), by decide, by decide, _, newer⟩
  have nothing : (convergeCliLinksToNewerDev fleetHost twoDevBuilds ["tool".toList]
      "2.0.0".toList).published fleetHost.cliDir "tool".toList = none := by
    decide
  rw [nothing] at linked
  cases linked

end Ynpm
