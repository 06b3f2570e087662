import Yggterm.Library.Ascii
import Yggterm.Library.Lines
import Yggterm.Ynpm.Verbs

/-!
# Packages and their keys

A package has its storage key and, in the first-party scope, its bare name.  Packages that
have no key in common never touch each other's record; the retention pass of an install takes
old generations of any package.
-/

namespace Ynpm

def keysOf (package : List Char) : List (List Char) :=
  packageStorageKey package :: (ygghqName package).toList

/-- No key in common, and each key a directory of its own. -/
structure Apart (package other : List Char) : Prop where
  disjoint : ∀ key ∈ keysOf package, key ∉ keysOf other
  isEntryName : ∀ key ∈ keysOf package, Paths.IsEntryName key
  other_isEntryName : ∀ key ∈ keysOf other, Paths.IsEntryName key

/-- The package that an action is about. -/
def Action.package : Action → Option (List Char)
  | .install answers spec _ => specPackage answers spec
  | .importGeneration _ package _ _ _ _ => some package
  | .rollback name | .remove _ name => (expandPackage name).toOption.map Prod.fst
  | .sweep _ _ _ => none

/-! ## Whose record is found -/

/-- Every record names a package that has its key, and is the other package or apart from it. -/
def Separated (other : List Char) (world : World) : Prop :=
  ∀ key record, world.package? key = some record →
    ∃ package, record.packageName = some package ∧ key ∈ keysOf package ∧
      (package = other ∨ Apart package other)

variable {package other key : List Char} {world after : World} {record : Package}

theorem Apart.ne (apart : Apart package other) : package ≠ other := by
  rintro rfl
  exact apart.disjoint (packageStorageKey package) List.mem_cons_self List.mem_cons_self

/-- Beside the recorded name a record answers by one of the keys. -/
theorem named_or_mem_keysOf {name : List Char} (named : record.packageName = some name)
    (answers : (rank package key record).isSome) : name = package ∨ key ∈ keysOf package := by
  rw [rank] at answers
  split at answers
  · next isName => exact .inl (Option.some.inj (named.symm.trans isName))
  split at answers
  · next isKey => exact .inr (isKey ▸ List.mem_cons_self)
  split at answers
  · next isName =>
      rw [keysOf, isName]
      exact .inr (List.mem_cons_of_mem _ (List.mem_singleton.mpr rfl))
  · simp [named] at answers

theorem mem_keysOf_of_findPackageKey (separated : Separated other world)
    (found : findPackageKey world.state package = some key) : key ∈ keysOf package := by
  obtain ⟨value, wanted, isValue, isRank⟩ := exists_of_findPackageKey found
  obtain ⟨name, named, isKey, _⟩ := separated key value isValue
  have answers : (rank package key value).isSome := Option.isSome_of_eq_some isRank
  rcases named_or_mem_keysOf named answers with rfl | member
  · exact isKey
  · exact member

theorem mem_keysOf_of_mayRecord (separated : Separated other world)
    (may : MayRecord world package key) : key ∈ keysOf package := by
  rcases may with rfl | isName | found
  · exact List.mem_cons_self
  · rw [keysOf, isName]
    exact List.mem_cons_of_mem _ (List.mem_singleton.mpr rfl)
  · exact mem_keysOf_of_findPackageKey separated found

/-- A lookup answers the package's own record. -/
theorem packageName_of_findPackageKey (separated : Separated other world)
    (found : findPackageKey world.state other = some key) :
    ∃ record, world.package? key = some record ∧ record.packageName = some other := by
  obtain ⟨record, wanted, isRecord, isRank⟩ := exists_of_findPackageKey found
  obtain ⟨name, named, isKey, isOther⟩ := separated key record isRecord
  refine ⟨record, isRecord, ?_⟩
  rcases isOther with rfl | apart
  · exact named
  · have answers : (rank other key record).isSome := Option.isSome_of_eq_some isRank
    rcases named_or_mem_keysOf named answers with rfl | member
    · exact named
    · exact absurd member (apart.disjoint key isKey)

/-! ## Steps keep packages apart -/

theorem separated_of_insert (separated : Separated other world) (isKey : key ∈ keysOf package)
    (isOther : package = other ∨ Apart package other)
    (named : record.packageName = some package)
    (inserted : after.state.packages = world.state.packages.insert key record) :
    Separated other after := by
  intro place found isFound
  rw [World.package?, inserted, OrderedMap.get?_insert] at isFound
  split at isFound
  · next same =>
      cases isFound
      exact ⟨package, named, same ▸ isKey, isOther⟩
  · exact separated place found isFound

theorem separated_of_same (separated : Separated other world)
    (same : after.state.packages = world.state.packages) : Separated other after := by
  intro place found isFound
  rw [World.package?, same] at isFound
  exact separated place found isFound

theorem separated_of_records {version : List Char} (separated : Separated other world)
    (isKey : key ∈ keysOf package) (isOther : package = other ∨ Apart package other)
    (records : Records world package version key after) : Separated other after := by
  cases records with
  | kept same => exact separated_of_same separated same
  | landed landing isPackage isVersion inserted =>
      exact separated_of_insert separated isKey isOther (congrArg some isPackage) inserted

theorem separated_step (host : Host) (world : World) (action : Action)
    (separated : Separated other world)
    (isOther : ∀ package ∈ action.package, package = other ∨ Apart package other) :
    Separated other (step host world action) := by
  cases action with
  | install answers spec destination =>
      rcases installOneAt_effect host answers world spec destination with
        same | ⟨package, version, key, asksFor, may, records, _⟩
      · rw [step, same]
        exact separated
      · exact separated_of_records separated (mem_keysOf_of_mayRecord separated may)
          (isOther package asksFor) records
  | importGeneration answers package version archive bins destination =>
      exact separated_of_records separated List.mem_cons_self (isOther package rfl)
        (importGeneration_records host answers world package version archive bins destination).1
  | rollback name =>
      rcases verbRollback_records host world name with
        same | ⟨key, record, target, isRecord, _, inserted⟩
      · rw [step, same]
        exact separated
      · obtain ⟨package, named, isKey, isPackage⟩ := separated key record isRecord
        refine separated_of_insert separated isKey isPackage ?_ inserted
        exact named
  | sweep keep dryRun spares =>
      exact separated_of_same separated
        (congrArg State.packages (state_sweepGenerations world keep dryRun spares))
  | remove answers name =>
      rcases verbRemove_effect host answers world name with
        same | ⟨package, pin, key, _, _, erased, _⟩
      · rw [step, same]
        exact separated
      · intro place found isFound
        rw [step, World.package?, erased, OrderedMap.get?_erase] at isFound
        split at isFound
        · cases isFound
        · exact separated place found isFound

theorem separated_run (host : Host) (actions : List Action) (separated : Separated other world)
    (isOther : ∀ action ∈ actions, ∀ package ∈ action.package,
      package = other ∨ Apart package other) :
    Separated other (Runs.run (step host) world actions) := by
  induction actions generalizing world with
  | nil => exact separated
  | cons action rest inductionHypothesis =>
      obtain ⟨first, later⟩ := List.forall_mem_cons.mp isOther
      exact inductionHypothesis (separated_step host world action separated first) later

/-! ## What a step leaves of the other packages -/

/-- The lookup, and the record with its versions, are as they were. -/
def LeavesRecord (other : List Char) (world after : World) : Prop :=
  findPackageKey after.state other = findPackageKey world.state other ∧
    ∀ key ∈ keysOf other, after.package? key = world.package? key

/-- A record that changes under a key of another package is not looked at. -/
theorem leavesRecord_of_elsewhere (separated : Separated other world)
    (separatedAfter : Separated other after) (notKey : key ∉ keysOf other)
    (elsewhere : ∀ place, place ≠ key → after.package? place = world.package? place) :
    LeavesRecord other world after := by
  have unseen : ∀ {state : World}, Separated other state → ∀ {record},
      state.package? key = some record → ¬ (rank other key record).isSome := by
    intro state isSeparated record isRecord answers
    obtain ⟨name, named, isKey, _⟩ := isSeparated key record isRecord
    rcases named_or_mem_keysOf named answers with rfl | member
    · exact notKey isKey
    · exact notKey member
  constructor
  · apply findPackageKey_congr
    intro place record answers
    rcases eq_or_ne place key with rfl | different
    · constructor
      · exact fun isRecord => absurd answers (unseen separatedAfter isRecord)
      · exact fun isRecord => absurd answers (unseen separated isRecord)
    · exact iff_of_eq (congrArg (· = some record) (elsewhere place different))
  · intro place isPlace
    exact elsewhere place fun same => notKey (same ▸ isPlace)

theorem leavesRecord_refl (other : List Char) (world : World) : LeavesRecord other world world :=
  ⟨rfl, fun _ _ => rfl⟩

/-- The generations under the keys of a package, but for those that a retention pass takes. -/
def LeavesGenerations (taken : List Char → List Char → Prop) (other : List Char)
    (world after : World) : Prop :=
  ∀ key ∈ keysOf other, ∀ version,
    after.generation? key version = world.generation? key version ∨ taken key version

/-- A due pass takes what is neither pinned nor among the newest two, and not spared. -/
def TakenByRetention (answers : Answers) (world : World) (key version : List Char) : Prop :=
  autoSweepDue world answers.now = true ∧
    survivesSweep world sweepDefaultKeep answers.spares key version = false

theorem install_leaves (host : Host) (answers : Answers) {spec : List Char}
    (destination : Option (List Char)) (separated : Separated other world)
    (asksFor : specPackage answers spec = some package) (apart : Apart package other) :
    let after := (installOneAt host answers world spec destination).2
    LeavesRecord other world after ∧
      LeavesGenerations (TakenByRetention answers world) other world after := by
  have separatedAfter := separated_step host world (.install answers spec destination) separated
    (fun found isFound => .inr (Option.some.inj (asksFor.symm.trans isFound) ▸ apart))
  intro after
  rcases installOneAt_effect host answers world spec destination with
    same | ⟨found, version, key, isFound, may, records, swept⟩
  · rw [show after = world from same]
    exact ⟨leavesRecord_refl other world, fun _ _ _ => .inl rfl⟩
  · obtain rfl : package = found := Option.some.inj (asksFor.symm.trans isFound)
    have notKey := apart.disjoint key (mem_keysOf_of_mayRecord separated may)
    constructor
    · apply leavesRecord_of_elsewhere separated separatedAfter notKey
      intro place different
      cases records with
      | kept same => rw [step, World.package?, same, World.package?]
      | landed landing isPackage isVersion inserted =>
          rw [step, World.package?, inserted, OrderedMap.get?_insert_of_ne different,
            World.package?]
    · intro place isPlace placeVersion
      exact swept place placeVersion fun same => notKey (same ▸ isPlace)

theorem remove_leaves (host : Host) (answers : Answers) {name : List Char}
    {pin : Option (List Char)} (separated : Separated other world)
    (expanded : expandPackage name = .ok (package, pin)) (apart : Apart package other) :
    let after := (verbRemove host answers world name).2
    LeavesRecord other world after ∧ LeavesGenerations (fun _ _ => False) other world after := by
  have separatedAfter := separated_step host world (.remove answers name) separated (by
    intro found isFound
    rw [Action.package, expanded] at isFound
    exact .inr (Option.some.inj isFound ▸ apart))
  intro after
  rcases verbRemove_effect host answers world name with
    same | ⟨found, foundPin, key, isFound, isKey, erased, elsewhere⟩
  · rw [show after = world from same]
    exact ⟨leavesRecord_refl other world, fun _ _ _ => .inl rfl⟩
  · rw [expanded] at isFound
    cases isFound
    have notKey := apart.disjoint key (mem_keysOf_of_findPackageKey separated isKey)
    constructor
    · apply leavesRecord_of_elsewhere separated separatedAfter notKey
      intro place different
      rw [step, World.package?, erased, OrderedMap.get?_erase, if_neg different, World.package?]
    · intro place isPlace placeVersion
      exact .inl (elsewhere place placeVersion fun same => notKey (same ▸ isPlace))

/-! ## Runs -/

/-- The record that is found is the package's own. -/
def FindsOwn (other : List Char) (world : World) : Prop :=
  ∀ key ∈ findPackageKey world.state other,
    ∃ record, world.package? key = some record ∧ record.packageName = some other

/-- Installs and removals of what `elsewhere` selects leave a package alone. -/
def LeftAlone (host : Host) (elsewhere : List Char → Prop)
    (taken : Answers → World → List Char → List Char → Prop) (other : List Char)
    (world : World) : Prop :=
  (∀ answers spec destination, ∀ package ∈ specPackage answers spec, elsewhere package →
    LeavesRecord other world (installOneAt host answers world spec destination).2 ∧
      LeavesGenerations (taken answers world) other world
        (installOneAt host answers world spec destination).2) ∧
  ∀ answers name package pin, expandPackage name = .ok (package, pin) → elsewhere package →
    LeavesRecord other world (verbRemove host answers world name).2 ∧
      LeavesGenerations (fun _ _ => False) other world (verbRemove host answers world name).2

/-- Where no package of a run has a key of the other one, the other one is left alone. -/
theorem leftAlone_of_apart (host : Host)
    (generations : OrderedMap (List Char ×ₗ List Char) Generation) (links : List Publication)
    (actions : List Action) (other : List Char)
    (isOther : ∀ action ∈ actions, ∀ package ∈ action.package,
      package = other ∨ Apart package other) :
    let world := Runs.run (step host) (.fresh generations links) actions
    FindsOwn other world ∧
      LeftAlone host (fun package => Apart package other) TakenByRetention other world := by
  intro world
  have separated : Separated other world :=
    separated_run host actions (fun _ _ isRecord => by cases isRecord) isOther
  refine ⟨fun _ => packageName_of_findPackageKey separated, ?_, ?_⟩
  · intro answers spec destination package asksFor apart
    exact install_leaves host answers destination separated asksFor apart
  · intro answers name package pin expanded apart
    exact remove_leaves host answers separated expanded apart

/-! ## A pass that another package's install runs -/

/-- A registry and npm that answer this version of any package, at some time. -/
def npmAnswering (version : List Char) (now : Nat) : Answers where
  fetchManifest _ _ := some ⟨version, []⟩
  unpackPlatform _ _ := none
  npmInstall _ _ := some ⟨ychromeBins, ["ychrome".toList]⟩
  fetchTarball _ := none
  runVersion _ := some version
  appManifest _ := true
  headroom := true
  now := now
  spares _ _ := false
  liveUnder _ := false

/-- Three releases of one package. -/
def threeReleases : List Action :=
  ["0.1.0", "0.2.0", "0.3.0"].map fun version =>
    .install (npmAnswering version.toList 0) "@openai/codex".toList none

/-- Installing another package takes the oldest of three generations. -/
theorem not_leftAlone_codex :
    ¬ LeftAlone fleetHost (fun package => package ≠ "@openai/codex".toList)
      (fun _ _ _ _ => False) "@openai/codex".toList
      (Runs.run (step fleetHost) (.fresh .empty []) threeReleases) := by
  rintro ⟨installs, _⟩
  obtain ⟨_, generations⟩ := installs (npmAnswering "1.0.0".toList autoSweepMinIntervalMs)
    "@a/tool".toList none "@a/tool".toList (by decide) (by decide)
  have there : ((Runs.run (step fleetHost) (.fresh .empty []) threeReleases).generation?
      "openai__codex".toList "0.1.0".toList).isSome = true := by
    decide
  have gone : ((installOneAt fleetHost (npmAnswering "1.0.0".toList autoSweepMinIntervalMs)
      (Runs.run (step fleetHost) (.fresh .empty []) threeReleases) "@a/tool".toList
      none).2.generation? "openai__codex".toList "0.1.0".toList).isSome = false := by
    decide
  rcases generations "openai__codex".toList (by decide) "0.1.0".toList with
    same | impossible
  · rw [same, there] at gone
    cases gone
  · exact impossible

theorem apart_tool_codex : Apart "@a/tool".toList "@openai/codex".toList := by
  have toolKeys : keysOf "@a/tool".toList = ["a__tool".toList] := by decide
  have codexKeys : keysOf "@openai/codex".toList = ["openai__codex".toList] := by decide
  refine ⟨?_, ?_, ?_⟩
  · rw [toolKeys, codexKeys]
    decide
  · rw [toolKeys, List.forall_mem_singleton]
    exact ⟨by decide, by decide, by decide, by decide⟩
  · rw [codexKeys, List.forall_mem_singleton]
    exact ⟨by decide, by decide, by decide, by decide⟩

/-- The other package is installed in between. -/
def withTool : List Action :=
  threeReleases ++
    [.install (npmAnswering "1.0.0".toList autoSweepMinIntervalMs) "@a/tool".toList none]

theorem leftAlone_codex :
    FindsOwn "@openai/codex".toList (Runs.run (step fleetHost) (.fresh .empty []) withTool) ∧
      LeftAlone fleetHost (fun package => Apart package "@openai/codex".toList) TakenByRetention
        "@openai/codex".toList (Runs.run (step fleetHost) (.fresh .empty []) withTool) :=
  leftAlone_of_apart fleetHost .empty [] withTool "@openai/codex".toList (by
    intro action isAction package isPackage
    rcases List.mem_append.mp isAction with isRelease | isTool
    · obtain ⟨version, _, rfl⟩ := List.mem_map.mp isRelease
      exact .inl (Option.some.inj isPackage).symm
    · obtain rfl := List.mem_singleton.mp isTool
      exact .inr (Option.some.inj isPackage ▸ apart_tool_codex))

/-! ## One key for two packages -/

theorem isWhitespace_of_isKeyChar {char : Char} (isKey : isKeyChar char = true) :
    Text.isWhitespace char = false := by
  have small : char.toNat < 128 := by
    simp only [isKeyChar, Bool.or_eq_true, beq_iff_eq] at isKey
    rcases isKey with ((alphanum | rfl) | rfl) | rfl
    · exact Ascii.toNat_lt_of_isAlphanum alphanum
    · decide
    · decide
    · decide
  exact Ascii.of_forall_ofNat (fun char => isKeyChar char = true → Text.isWhitespace char = false)
    (by decide) small isKey

theorem map_isKeyChar {text : List Char} (isKey : ∀ char ∈ text, isKeyChar char = true) :
    (text.map fun char => if isKeyChar char then char else '-') = text := by
  conv_rhs => rw [← List.map_id text]
  apply List.map_congr_left
  intro char member
  rw [if_pos (isKey char member), id]

theorem packageStorageKey_ygghq {name : List Char} (isKey : ∀ char ∈ name, isKeyChar char = true) :
    packageStorageKey (ygghqScope ++ name) = name := by
  have scopeSolid : ygghqScope.any Text.isWhitespace = false := by decide
  have solid : ∀ char ∈ ygghqScope ++ name, Text.isWhitespace char = false := by
    intro char member
    rcases List.mem_append.mp member with inScope | inName
    · exact Bool.eq_false_iff.mpr (List.any_eq_false.mp scopeSolid char inScope)
    · exact isWhitespace_of_isKeyChar (isKey char inName)
  have isName : ygghqName (ygghqScope ++ name) = some name :=
    List.isPrefixOf?_eq_some_iff_append_eq.mpr rfl
  rw [packageStorageKey, Text.trim_of_forall_not_isWhitespace solid, isName]
  exact map_isKeyChar isKey

theorem flatMap_of_isKeyChar {text : List Char} (isKey : ∀ char ∈ text, isKeyChar char = true) :
    (text.flatMap fun char => if char = '/' then ['_', '_'] else [char]) = text := by
  induction text with
  | nil => rfl
  | cons first rest inductionHypothesis =>
      obtain ⟨firstKey, restKey⟩ := List.forall_mem_cons.mp isKey
      have notSlash : first ≠ '/' := by
        rintro rfl
        revert firstKey
        decide
      rw [List.flatMap_cons, inductionHypothesis restKey, if_neg notSlash]
      rfl

theorem isKeyChar_joined {scope name : List Char}
    (scopeKey : ∀ char ∈ scope, isKeyChar char = true)
    (nameKey : ∀ char ∈ name, isKeyChar char = true) :
    ∀ char ∈ scope ++ '_' :: '_' :: name, isKeyChar char = true := by
  intro char member
  simp only [List.mem_append, List.mem_cons] at member
  rcases member with inScope | rfl | rfl | inName
  · exact scopeKey char inScope
  · decide
  · decide
  · exact nameKey char inName

theorem packageStorageKey_scoped {scope name : List Char}
    (scopeKey : ∀ char ∈ scope, isKeyChar char = true)
    (nameKey : ∀ char ∈ name, isKeyChar char = true)
    (notFirstParty : ygghqName ('@' :: (scope ++ '/' :: name)) = none) :
    packageStorageKey ('@' :: (scope ++ '/' :: name)) = scope ++ '_' :: '_' :: name := by
  have solid : ∀ char ∈ '@' :: (scope ++ '/' :: name), Text.isWhitespace char = false := by
    intro char member
    simp only [List.mem_cons, List.mem_append] at member
    rcases member with rfl | inScope | rfl | inName
    · decide
    · exact isWhitespace_of_isKeyChar (scopeKey char inScope)
    · decide
    · exact isWhitespace_of_isKeyChar (nameKey char inName)
  have bare : ('@' :: (scope ++ '/' :: name)).dropWhile (· = '@') = scope ++ '/' :: name := by
    rw [List.dropWhile_cons_of_pos (by simp)]
    cases scope with
    | nil => exact List.dropWhile_cons_of_neg (by decide)
    | cons first rest =>
        have firstKey := scopeKey first List.mem_cons_self
        apply List.dropWhile_cons_of_neg
        intro isAt
        rw [of_decide_eq_true isAt] at firstKey
        revert firstKey
        decide
  rw [packageStorageKey, Text.trim_of_forall_not_isWhitespace solid, notFirstParty]
  dsimp only
  rw [bare, List.flatMap_append, List.flatMap_cons, flatMap_of_isKeyChar scopeKey,
    flatMap_of_isKeyChar nameKey]
  exact map_isKeyChar (isKeyChar_joined scopeKey nameKey)

/-- A package of another scope has the key of a first-party one. -/
theorem packageStorageKey_collides {scope name : List Char}
    (scopeKey : ∀ char ∈ scope, isKeyChar char = true)
    (nameKey : ∀ char ∈ name, isKeyChar char = true)
    (notFirstParty : ygghqName ('@' :: (scope ++ '/' :: name)) = none) :
    packageStorageKey ('@' :: (scope ++ '/' :: name)) =
      packageStorageKey (ygghqScope ++ (scope ++ '_' :: '_' :: name)) := by
  rw [packageStorageKey_scoped scopeKey nameKey notFirstParty,
    packageStorageKey_ygghq (isKeyChar_joined scopeKey nameKey)]

end Ynpm
