import Yggterm.Library.OrderedMaps
import Yggterm.Ynpm.Versions

/-!
# Package names and the records kept under their keys

A package is recorded under a key made from its canonical name.  A lookup tries four ranks:
the recorded name, the key, the key that first-party packages had, the bare name.
-/

namespace Ynpm

/-! ## Names -/

inductive NameError where
  | noSlash
  | emptyScope
  | emptyName
  | unresolvable
  deriving DecidableEq

def ygghqScope : List Char := "@ygghq/".toList

/-- The canonical name and the pin. -/
def expandPackage (spec : List Char) :
    Except NameError (List Char × Option (List Char)) :=
  match spec with
  | '@' :: rest =>
      match SemVer.splitOnce '/' rest with
      | none => .error .noSlash
      | some (scopeName, pin) =>
          if scopeName = [] then .error .emptyScope
          else
            let (name, pin) : List Char × Option (List Char) :=
              match SemVer.splitOnce '@' pin with
              | some (base, version) => (base, some version)
              | none => (pin, none)
            if name = [] then .error .emptyName
            else .ok ('@' :: (scopeName ++ '/' :: name), pin)
  | spec =>
      match SemVer.splitOnce '@' spec with
      | some (name, version) =>
          if name = [] ∨ name.contains '/' then .error .unresolvable
          else .ok (ygghqScope ++ name, some version)
      | none =>
          if spec = [] ∨ spec.contains '/' then .error .unresolvable
          else .ok (ygghqScope ++ spec, none)

/-- `strip_prefix("@ygghq/")`. -/
def ygghqName (package : List Char) : Option (List Char) := ygghqScope.isPrefixOf? package

/-- A character that a key keeps. -/
def isKeyChar (char : Char) : Bool :=
  char.isAlphanum || char == '.' || char == '_' || char == '-'

def packageStorageKey (package : List Char) : List Char :=
  let package := Text.trim package
  let raw := match ygghqName package with
    | some name => name
    | none => (package.dropWhile (· = '@')).flatMap fun char =>
        if char = '/' then ['_', '_'] else [char]
  raw.map fun char => if isKeyChar char then char else '-'

/-! ## Records -/

/-- What is read of a dev build. -/
structure DevMarker where
  generation : Option (List Char)
  deriving DecidableEq

/-- The bins of a package: names and paths inside the package. -/
abbrev BinTable := OrderedMap (List Char) (List Char)

structure Package where
  packageName : Option (List Char)
  current : List Char
  versions : List (List Char)
  bins : BinTable
  destination : Option (List Char)
  dev : Option DevMarker
  devGeneration : Option (List Char)
  channel : Option (List Char)
  source : Option (List Char)
  deriving DecidableEq

structure State where
  packages : OrderedMap (List Char) Package
  lastAutoSweepMs : Option Nat
  deriving DecidableEq

/-- The rank at which an entry answers to the name. -/
def rank (package key : List Char) (value : Package) : Option Nat :=
  if value.packageName = some package then some 0
  else if key = packageStorageKey package then some 1
  else if ygghqName package = some key then some 2
  else if value.packageName = none ∧ (package.splitOn '/').getLast? = some key then some 3
  else none

/-- The first entry of a rank, in the order of the keys. -/
def firstOfRank (packages : OrderedMap (List Char) Package) (package : List Char)
    (wanted : Nat) : Option (List Char) :=
  (packages.entries.find? fun entry => rank package entry.1 entry.2 = some wanted).map Prod.fst

def findPackageKey (state : State) (package : List Char) : Option (List Char) :=
  (firstOfRank state.packages package 0).or <| (firstOfRank state.packages package 1).or <|
    (firstOfRank state.packages package 2).or <| firstOfRank state.packages package 3

@[simp]
theorem rank_eq_zero_iff {package key : List Char} {value : Package} :
    rank package key value = some 0 ↔ value.packageName = some package := by
  rw [rank]
  split
  · next named => simp [named]
  · next notNamed =>
      simp only [notNamed, iff_false]
      split_ifs <;> simp

theorem firstOfRank_eq_some_iff {packages : OrderedMap (List Char) Package}
    {package key : List Char} {wanted : Nat} :
    firstOfRank packages package wanted = some key ↔
      ∃ value, packages.get? key = some value ∧ rank package key value = some wanted ∧
        ∀ other otherValue, packages.get? other = some otherValue →
          rank package other otherValue = some wanted → key ≤ other := by
  rw [firstOfRank, Option.map_eq_some_iff]
  constructor
  · rintro ⟨⟨_, value⟩, found, rfl⟩
    obtain ⟨member, accepted, least⟩ := OrderedMap.find?_eq_some_iff_least.mp found
    refine ⟨value, OrderedMap.get?_eq_some_iff.mpr member, of_decide_eq_true accepted, ?_⟩
    intro other otherValue isOther isRank
    exact least (other, otherValue) (OrderedMap.get?_eq_some_iff.mp isOther)
      (decide_eq_true isRank)
  · rintro ⟨value, isValue, isRank, least⟩
    refine ⟨(key, value), OrderedMap.find?_eq_some_iff_least.mpr ⟨?_, ?_, ?_⟩, rfl⟩
    · exact OrderedMap.get?_eq_some_iff.mp isValue
    · exact decide_eq_true isRank
    · intro other isOther accepted
      exact least other.1 other.2 (OrderedMap.get?_eq_some_iff.mpr isOther)
        (of_decide_eq_true accepted)

/-- A lookup answers an entry that answers to the name. -/
theorem exists_of_findPackageKey {state : State} {package key : List Char}
    (found : findPackageKey state package = some key) :
    ∃ value wanted, state.packages.get? key = some value ∧
      rank package key value = some wanted := by
  have located : ∃ wanted, firstOfRank state.packages package wanted = some key := by
    rcases Option.or_eq_some_iff.mp found with here | ⟨_, later⟩
    · exact ⟨0, here⟩
    rcases Option.or_eq_some_iff.mp later with here | ⟨_, later⟩
    · exact ⟨1, here⟩
    rcases Option.or_eq_some_iff.mp later with here | ⟨_, later⟩
    · exact ⟨2, here⟩
    · exact ⟨3, later⟩
  obtain ⟨wanted, first⟩ := located
  obtain ⟨value, isValue, answers, _⟩ := firstOfRank_eq_some_iff.mp first
  exact ⟨value, wanted, isValue, answers⟩

theorem firstOfRank_congr {packages others : OrderedMap (List Char) Package}
    {package : List Char} {wanted : Nat}
    (same : ∀ key value, rank package key value = some wanted →
      (packages.get? key = some value ↔ others.get? key = some value)) :
    firstOfRank packages package wanted = firstOfRank others package wanted := by
  apply Option.ext
  intro key
  rw [firstOfRank_eq_some_iff, firstOfRank_eq_some_iff]
  constructor
  · rintro ⟨value, isValue, isRank, least⟩
    refine ⟨value, (same key value isRank).mp isValue, isRank, ?_⟩
    intro other otherValue isOther otherRank
    exact least other otherValue ((same other otherValue otherRank).mpr isOther) otherRank
  · rintro ⟨value, isValue, isRank, least⟩
    refine ⟨value, (same key value isRank).mpr isValue, isRank, ?_⟩
    intro other otherValue isOther otherRank
    exact least other otherValue ((same other otherValue otherRank).mp isOther) otherRank

/-- What a lookup answers depends on the entries that answer to the name. -/
theorem findPackageKey_congr {state other : State} {package : List Char}
    (same : ∀ key value, (rank package key value).isSome →
      (state.packages.get? key = some value ↔ other.packages.get? key = some value)) :
    findPackageKey state package = findPackageKey other package := by
  have ranked : ∀ wanted, firstOfRank state.packages package wanted =
      firstOfRank other.packages package wanted := by
    intro wanted
    apply firstOfRank_congr
    intro key value isRank
    exact same key value (by simp [isRank])
  rw [findPackageKey, findPackageKey, ranked 0, ranked 1, ranked 2, ranked 3]

/-- The recorded name goes before everything else. -/
theorem findPackageKey_of_named {state : State} {package key : List Char} {value : Package}
    (isValue : state.packages.get? key = some value) (named : value.packageName = some package) :
    findPackageKey state package = firstOfRank state.packages package 0 ∧
      (findPackageKey state package).isSome := by
  cases first : firstOfRank state.packages package 0 with
  | none =>
      rw [firstOfRank, Option.map_eq_none_iff, List.find?_eq_none] at first
      have rejected := first (key, value) (OrderedMap.get?_eq_some_iff.mp isValue)
      exact absurd (decide_eq_true (rank_eq_zero_iff.mpr named)) rejected
  | some found => simp [findPackageKey, first]

/-- A record that is written under the name of its package is found, or one before it that was
found already. -/
theorem findPackageKey_insert {state after : State} {package key : List Char} {value : Package}
    (inserted : after.packages = state.packages.insert key value)
    (named : value.packageName = some package) :
    ∃ found, findPackageKey after package = some found ∧
      (found = key ∨ found ≠ key ∧ findPackageKey state package = some found) := by
  have isValue : after.packages.get? key = some value := by
    rw [inserted, OrderedMap.get?_insert_self]
  have elsewhere :
      ∀ other, other ≠ key → after.packages.get? other = state.packages.get? other := by
    intro other different
    rw [inserted, OrderedMap.get?_insert_of_ne different]
  obtain ⟨isFirst, isSome⟩ := findPackageKey_of_named isValue named
  obtain ⟨found, isFound⟩ := Option.isSome_iff_exists.mp isSome
  refine ⟨found, isFound, ?_⟩
  rcases eq_or_ne found key with same | different
  · exact .inl same
  · right
    obtain ⟨foundValue, isFoundValue, isRank, least⟩ :=
      firstOfRank_eq_some_iff.mp (isFirst.symm.trans isFound)
    rw [elsewhere found different] at isFoundValue
    refine ⟨different, ?_⟩
    rw [(findPackageKey_of_named isFoundValue (rank_eq_zero_iff.mp isRank)).1]
    refine firstOfRank_eq_some_iff.mpr ⟨foundValue, isFoundValue, isRank, ?_⟩
    intro other otherValue isOther otherRank
    rcases eq_or_ne other key with rfl | otherDifferent
    · exact least other value isValue (rank_eq_zero_iff.mpr named)
    · rw [← elsewhere other otherDifferent] at isOther
      exact least other otherValue isOther otherRank

end Ynpm
