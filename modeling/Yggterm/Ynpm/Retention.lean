import Mathlib.Data.Finset.Max
import Mathlib.Data.List.Sort
import Yggterm.Library.Ranks
import Yggterm.Ynpm.Host

/-!
# The retention pass

Of the generations of a package the current one, the dev ones and the newest stay; what the
guards spare stays too.
-/

namespace Ynpm

def sweepDefaultKeep : Nat := 2

def autoSweepMinIntervalMs : Nat := 6 * 60 * 60 * 1000

/-- The generations that a record pins. -/
def pinnedNames (package : Option Package) : List (List Char) :=
  match package with
  | none => []
  | some package =>
      package.current :: package.devGeneration.toList ++
        (if package.dev.isSome then ["dev".toList] else [])

def generationKeepNames (package : Option Package) (entries : List (List Char)) (keep : Nat) :
    List (List Char) :=
  let versions := entries.filter fun name =>
    !("dev-".toList.isPrefixOf name) && name != "dev".toList
  let sorted := versions.insertionSort fun first second =>
    SemVer.rank second ≤ SemVer.rank first
  pinnedNames package ++ sorted.take keep

/-- The names of the generations of a package, as its directory lists them. -/
def World.generationNames (world : World) (key : List Char) : List (List Char) :=
  (world.generations.keys.filter fun place => (ofLex place).1 = key).map fun place =>
    (ofLex place).2

/-- A generation outlives the pass. -/
def survivesSweep (world : World) (keep : Nat) (spares : List Char → List Char → Bool)
    (key version : List Char) : Bool :=
  (generationKeepNames (world.package? key) (world.generationNames key) keep).contains version ||
    spares key version

def sweepGenerations (world : World) (keep : Nat) (dryRun : Bool)
    (spares : List Char → List Char → Bool) : World :=
  if dryRun then world
  else
    { world with
      generations := world.generations.filter fun place _ =>
        survivesSweep world keep spares (ofLex place).1 (ofLex place).2 }

/-- The pass is not throttled. -/
def autoSweepDue (world : World) (now : Nat) : Bool :=
  match world.state.lastAutoSweepMs with
  | some stamp => decide (autoSweepMinIntervalMs ≤ now - stamp)
  | none => true

def autoSweepIfDue (answers : Answers) (world : World) : World :=
  if autoSweepDue world answers.now then
    sweepGenerations { world with
      state := { world.state with lastAutoSweepMs := some answers.now } }
      sweepDefaultKeep false answers.spares
  else world

@[simp]
theorem state_sweepGenerations (world : World) (keep : Nat) (dryRun : Bool)
    (spares : List Char → List Char → Bool) :
    (sweepGenerations world keep dryRun spares).state = world.state := by
  rw [sweepGenerations]
  split
  · rfl
  · rfl

@[simp]
theorem packages_autoSweepIfDue (answers : Answers) (world : World) :
    (autoSweepIfDue answers world).state.packages = world.state.packages := by
  rw [autoSweepIfDue]
  split
  · simp
  · rfl

@[simp]
theorem links_autoSweepIfDue (answers : Answers) (world : World) :
    (autoSweepIfDue answers world).links = world.links := by
  rw [autoSweepIfDue]
  split
  · rfl
  · rfl

/-- A pass takes generations that do not survive it, and no others. -/
theorem generation?_sweepGenerations (world : World) (keep : Nat)
    (spares : List Char → List Char → Bool) (key version : List Char) :
    (sweepGenerations world keep false spares).generation? key version =
      if survivesSweep world keep spares key version then world.generation? key version
      else none := by
  rw [sweepGenerations, if_neg Bool.false_ne_true, World.generation?, OrderedMap.get?_filter]
  split
  · next survives =>
      rw [World.generation?]
      cases world.generations.get? (toLex (key, version)) with
      | none => rfl
      | some generation => exact Option.filter_some_pos survives
  · next swept => simp [swept]

/-- Whatever the guards spare, a due pass leaves what it would keep of a package. -/
theorem generation?_autoSweepIfDue (answers : Answers) (world : World) (key version : List Char) :
    (autoSweepIfDue answers world).generation? key version = world.generation? key version ∨
      autoSweepDue world answers.now = true ∧
        survivesSweep world sweepDefaultKeep answers.spares key version = false := by
  rw [autoSweepIfDue]
  split
  · next due =>
      cases survives : survivesSweep world sweepDefaultKeep answers.spares key version with
      | true =>
          left
          rw [generation?_sweepGenerations, if_pos]
          · rfl
          · exact survives
      | false => exact .inr ⟨due, rfl⟩
  · exact .inl rfl

/-! ## Which generations are kept

The retention pass ranks a pre-release above its own release, and a name that is no version above
version 0.0.0.  A release that is overtaken so may be swept while what is older stays. -/

/-- By `cmp_semver`; what is no version counts as oldest. -/
def Newer (name other : List Char) : Prop :=
  ∃ version ∈ SemVer.parse name, ∀ otherVersion ∈ SemVer.parse other,
    SemVer.cmpSemver version otherVersion = .gt

/-- The rank of the pass puts the older name first. -/
def Overtakes (older newer : List Char) : Prop :=
  ∃ version ∈ SemVer.parse newer,
    match SemVer.parse older with
    | some other => (other.major = version.major ∧ other.minor = version.minor ∧
        other.patch = version.patch) ∧ version.pre = none ∧ other.pre ≠ none
    | none => (version.major = 0 ∧ version.minor = 0 ∧ version.patch = 0) ∧
        ∀ pre ∈ version.pre, pre ≤ "~unparseable".toList

def versionNames (entries : List (List Char)) : List (List Char) :=
  entries.filter fun name => !("dev-".toList.isPrefixOf name) && name != "dev".toList

/-- The dev generation that is published, as it is looked up where it is used. -/
def Package.publishedDev (record : Package) : Option (List Char) :=
  record.devGeneration.or (record.dev.map fun marker => marker.generation.getD "dev".toList)

/-- The names to keep hold the pinned ones, and as many as asked for that nothing newer than them
is swept. -/
structure KeepsNewest (package : Option Package) (entries : List (List Char)) (keep : Nat)
    (kept : List (List Char)) : Prop where
  current : ∀ record ∈ package, record.current ∈ kept
  dev : ∀ record ∈ package, ∀ name ∈ record.publishedDev, name ∈ kept
  newest : ∃ chosen : List (List Char), chosen.Subperm (versionNames entries) ∧
    chosen.length = min keep (versionNames entries).length ∧ (∀ name ∈ chosen, name ∈ kept) ∧
      ∀ late ∈ versionNames entries, late ∉ kept → ∀ name ∈ chosen, ¬ Newer late name

/-! ### Two orders of versions -/

/-- A release stands above its pre-releases. -/
def tagAge : Option (List Char) → WithTop (List Char)
  | some pre => pre
  | none => ⊤

def SemVer.age (version : SemVer) : Nat ×ₗ Nat ×ₗ Nat ×ₗ WithTop (List Char) :=
  toLex (version.major, toLex (version.minor, toLex (version.patch, tagAge version.pre)))

def age (name : List Char) : WithBot (Nat ×ₗ Nat ×ₗ Nat ×ₗ WithTop (List Char)) :=
  match SemVer.parse name with
  | some version => version.age
  | none => ⊥

/-- Of two versions with the same numbers. -/
theorem SemVer.cmpSemver_of_same {first second : SemVer} (major : first.major = second.major)
    (minor : first.minor = second.minor) (patch : first.patch = second.patch) :
    SemVer.cmpSemver first second = .gt ↔ tagAge second.pre < tagAge first.pre := by
  obtain ⟨_, _, _, pre⟩ := first
  obtain ⟨_, _, _, otherPre⟩ := second
  subst major minor patch
  rw [SemVer.cmpSemver, cmp_self_eq_eq, cmp_self_eq_eq, cmp_self_eq_eq, if_neg (by decide)]
  cases pre with
  | none => cases otherPre with
    | none => exact iff_of_false (fun isGt => Ordering.noConfusion isGt) (lt_irrefl _)
    | some otherPre => exact iff_of_true rfl (WithTop.coe_lt_top otherPre)
  | some pre => cases otherPre with
    | none => exact iff_of_false (fun isGt => Ordering.noConfusion isGt) not_top_lt
    | some otherPre =>
        change cmp pre otherPre = .gt ↔ (otherPre : WithTop (List Char)) < pre
        rw [WithTop.coe_lt_coe, cmp, cmpUsing]
        split
        · next below => exact iff_of_false (fun isGt => Ordering.noConfusion isGt) below.asymm
        · split
          · next above => exact iff_of_true rfl above
          · next above => exact iff_of_false (fun isGt => Ordering.noConfusion isGt) above

theorem SemVer.cmpSemver_eq_gt_iff {first second : SemVer} :
    SemVer.cmpSemver first second = .gt ↔ second.age < first.age := by
  rw [SemVer.age, SemVer.age, Prod.Lex.toLex_lt_toLex, Prod.Lex.toLex_lt_toLex,
    Prod.Lex.toLex_lt_toLex]
  by_cases same : ((cmp first.major second.major).then (cmp first.minor second.minor)).then
      (cmp first.patch second.patch) = .eq
  · rw [Ordering.then_eq_eq, Ordering.then_eq_eq, cmp_eq_eq_iff, cmp_eq_eq_iff,
      cmp_eq_eq_iff] at same
    obtain ⟨⟨major, minor⟩, patch⟩ := same
    rw [SemVer.cmpSemver_of_same major minor patch, major, minor, patch]
    simp
  · rw [SemVer.cmpSemver, if_pos same, Ordering.then_eq_gt, Ordering.then_eq_gt,
      Ordering.then_eq_eq, cmp_eq_gt_iff, cmp_eq_gt_iff, cmp_eq_gt_iff, cmp_eq_eq_iff,
      cmp_eq_eq_iff]
    rw [Ordering.then_eq_eq, Ordering.then_eq_eq, cmp_eq_eq_iff, cmp_eq_eq_iff,
      cmp_eq_eq_iff] at same
    grind

theorem newer_iff {name other : List Char} : Newer name other ↔ age other < age name := by
  rw [Newer, age, age]
  cases SemVer.parse name with
  | none => simp
  | some version =>
      cases SemVer.parse other with
      | none => simp [WithBot.bot_lt_coe]
      | some otherVersion => simp [SemVer.cmpSemver_eq_gt_iff]

theorem tagAge_lt_iff {pre other : Option (List Char)}
    (behind : @LE.le (WithBot (List Char)) _ pre other) :
    tagAge other < tagAge pre ↔ pre = none ∧ other ≠ none := by
  cases pre with
  | none => cases other with
    | none => simp [tagAge]
    | some other => simp [tagAge]
  | some pre => cases other with
    | none => exact absurd behind (WithBot.not_coe_le_bot pre)
    | some other =>
        have notLess : ¬ other < pre := not_lt.mpr (WithBot.coe_le_coe.mp behind)
        simpa [tagAge] using notLess

/-- What is ranked behind an older name is overtaken by it. -/
theorem newer_iff_overtakes {older newer : List Char}
    (behind : SemVer.rank newer ≤ SemVer.rank older) :
    Newer newer older ↔ Overtakes older newer := by
  rw [newer_iff, age, age, Overtakes]
  rw [SemVer.rank, SemVer.rank] at behind
  revert behind
  cases SemVer.parse newer with
  | none => simp
  | some version =>
      obtain ⟨major, minor, patch, pre⟩ := version
      cases SemVer.parse older with
      | none =>
          intro behind
          simp only [Prod.Lex.toLex_le_toLex] at behind
          refine iff_of_true (WithBot.bot_lt_coe _) ?_
          rcases behind with lower | ⟨rfl, lower | ⟨rfl, lower | ⟨rfl, below⟩⟩⟩
          · exact absurd lower (Nat.not_lt_zero _)
          · exact absurd lower (Nat.not_lt_zero _)
          · exact absurd lower (Nat.not_lt_zero _)
          · refine ⟨_, rfl, ⟨rfl, rfl, rfl⟩, ?_⟩
            rintro tag ⟨⟩
            exact WithBot.coe_le_coe.mp below
      | some other =>
          obtain ⟨major', minor', patch', pre'⟩ := other
          intro behind
          simp only [Prod.Lex.toLex_le_toLex] at behind
          simp only [WithBot.coe_lt_coe, SemVer.age, Prod.Lex.toLex_lt_toLex]
          rcases behind with lower | ⟨rfl, lower | ⟨rfl, lower | ⟨rfl, below⟩⟩⟩
          · simp [lower.asymm, lower.ne']
          · simp [lower.asymm, lower.ne']
          · simp [lower.asymm, lower.ne']
          · simp [tagAge_lt_iff below]

/-! ### What is kept -/

section Kept

variable (package : Option Package) (entries : List (List Char)) (keep : Nat)

/-- Fewer names than are kept stand ahead of a place. -/
def IsFirst (place : List Char × Nat) : Prop :=
  Ranks.ahead SemVer.rank (versionNames entries) place < keep

/-- A name is pinned, or it is among the first. -/
def IsKept (name : List Char) : Prop :=
  name ∈ pinnedNames package ∨
    ∃ place ∈ (versionNames entries).zipIdx, IsFirst entries keep place ∧ place.1 = name

open scoped Classical in
/-- The kept names that are not among the first make up for those that overtook a newer one. -/
def OvertakersMadeUp : Prop :=
  ∀ late ∈ versionNames entries, ¬ IsKept package entries keep late →
    (versionNames entries).zipIdx.countP
        (fun place => IsFirst entries keep place ∧ Overtakes place.1 late) ≤
      (versionNames entries).zipIdx.countP fun place => ¬ IsFirst entries keep place ∧
        IsKept package entries keep place.1 ∧ ¬ Newer late place.1

variable {package entries keep}

theorem mem_generationKeepNames_iff {name : List Char} :
    name ∈ generationKeepNames package entries keep ↔ IsKept package entries keep name := by
  have first := (Ranks.take_sort_perm SemVer.rank (versionNames entries) keep).mem_iff
    (a := name)
  rw [generationKeepNames, List.mem_append, IsKept]
  refine or_congr_right (first.trans ?_)
  simp only [List.mem_map, List.mem_filter, decide_eq_true_eq, IsFirst, and_assoc]

theorem countP_and_add {Item : Type} (items : List Item) (first second : Item → Prop)
    [DecidablePred first] [DecidablePred second] :
    items.countP (fun item => first item ∧ second item) +
        items.countP (fun item => first item ∧ ¬ second item) =
      items.countP fun item => first item := by
  induction items with
  | nil => rfl
  | cons item rest inductionHypothesis =>
      simp only [List.countP_cons, decide_eq_true_eq]
      by_cases isFirst : first item
      · by_cases isSecond : second item
        · simp only [isFirst, isSecond, and_self, not_true_eq_false, and_false, if_true, if_false]
          omega
        · simp only [isFirst, isSecond, and_false, not_false_eq_true, and_self, if_true, if_false]
          omega
      · simp only [isFirst, false_and, if_false, Nat.add_zero]
        exact inductionHypothesis

theorem countP_isFirst (entries : List (List Char)) (keep : Nat)
    [DecidablePred (IsFirst entries keep)] :
    (versionNames entries).zipIdx.countP (fun place => IsFirst entries keep place) =
      min keep (versionNames entries).length := by
  have lengths :=
    (Ranks.take_sort_perm SemVer.rank (versionNames entries) keep).length_eq
  rw [List.length_take, Ranks.sort, List.length_insertionSort, List.length_map] at lengths
  rw [lengths, List.countP_eq_length_filter]
  exact congrArg List.length (List.filter_congr fun _ _ => decide_eq_decide.mpr Iff.rfl)

/-- What is not among the first ranks no higher than what is. -/
theorem rank_le_of_isFirst {place late : List Char × Nat} (isFirst : IsFirst entries keep place)
    (behind : ¬ IsFirst entries keep late) : SemVer.rank late.1 ≤ SemVer.rank place.1 := by
  by_contra higher
  have before : Ranks.Before SemVer.rank late place := .inl (not_le.mp higher)
  refine behind (lt_of_le_of_lt (List.countP_mono_left fun other _ ahead => ?_) isFirst)
  exact decide_eq_true ((of_decide_eq_true ahead).trans before)

theorem exists_behind {late : List Char} (member : late ∈ versionNames entries)
    (swept : ¬ IsKept package entries keep late) :
    ∃ place ∈ (versionNames entries).zipIdx, place.1 = late ∧ ¬ IsFirst entries keep place := by
  rw [← List.zipIdx_map_fst 0 (versionNames entries)] at member
  obtain ⟨place, inPlaces, isLate⟩ := List.mem_map.mp member
  exact ⟨place, inPlaces, isLate, fun isFirst => swept (.inr ⟨place, inPlaces, isFirst, isLate⟩)⟩

open scoped Classical in
/-- Enough of what is kept is not older than a name that is swept just where the overtakers are
made up for. -/
theorem keep_le_countP_iff {late : List Char} (member : late ∈ versionNames entries)
    (swept : ¬ IsKept package entries keep late) :
    min keep (versionNames entries).length ≤ (versionNames entries).countP
        (fun name => IsKept package entries keep name ∧ ¬ Newer late name) ↔
      (versionNames entries).zipIdx.countP
          (fun place => IsFirst entries keep place ∧ Overtakes place.1 late) ≤
        (versionNames entries).zipIdx.countP fun place => ¬ IsFirst entries keep place ∧
          IsKept package entries keep place.1 ∧ ¬ Newer late place.1 := by
  obtain ⟨latePlace, _, rfl, behind⟩ := exists_behind member swept
  have allFirst := countP_isFirst entries keep
  have firstParts := countP_and_add (versionNames entries).zipIdx (IsFirst entries keep)
    fun place => Overtakes place.1 latePlace.1
  have keptParts := countP_and_add (versionNames entries).zipIdx
    (fun place => IsKept package entries keep place.1 ∧ ¬ Newer latePlace.1 place.1)
    (IsFirst entries keep)
  have isTotal : (versionNames entries).countP
      (fun name => IsKept package entries keep name ∧ ¬ Newer latePlace.1 name) =
        (versionNames entries).zipIdx.countP fun place =>
          IsKept package entries keep place.1 ∧ ¬ Newer latePlace.1 place.1 := by
    conv_lhs => rw [← List.zipIdx_map_fst 0 (versionNames entries), List.countP_map]
    rfl
  have sameFirst : (versionNames entries).zipIdx.countP (fun place =>
      (IsKept package entries keep place.1 ∧ ¬ Newer latePlace.1 place.1) ∧
        IsFirst entries keep place) = (versionNames entries).zipIdx.countP fun place =>
          IsFirst entries keep place ∧ ¬ Overtakes place.1 latePlace.1 := by
    refine List.countP_congr fun place inPlaces => ?_
    rw [decide_eq_true_iff, decide_eq_true_iff, and_comm]
    refine and_congr_right fun isFirst => ?_
    have isKept : IsKept package entries keep place.1 := .inr ⟨place, inPlaces, isFirst, rfl⟩
    rw [and_iff_right isKept, newer_iff_overtakes (rank_le_of_isFirst isFirst behind)]
  have sameBehind : (versionNames entries).zipIdx.countP (fun place =>
      (IsKept package entries keep place.1 ∧ ¬ Newer latePlace.1 place.1) ∧
        ¬ IsFirst entries keep place) = (versionNames entries).zipIdx.countP fun place =>
          ¬ IsFirst entries keep place ∧ IsKept package entries keep place.1 ∧
            ¬ Newer latePlace.1 place.1 := by
    refine List.countP_congr fun place _ => ?_
    rw [decide_eq_true_iff, decide_eq_true_iff, and_comm]
  omega

end Kept

/-- Of the names that are swept one is newest. -/
theorem exists_newest_swept {package : Option Package} {entries : List (List Char)} {keep : Nat}
    (someSwept : ∃ late ∈ versionNames entries, ¬ IsKept package entries keep late) :
    ∃ late ∈ versionNames entries, ¬ IsKept package entries keep late ∧
      ∀ other ∈ versionNames entries, ¬ IsKept package entries keep other →
        age other ≤ age late := by
  classical
  have nonempty : ((versionNames entries).filter
      fun name => ¬ IsKept package entries keep name).toFinset.Nonempty := by
    obtain ⟨late, member, swept⟩ := someSwept
    exact ⟨late, List.mem_toFinset.mpr (List.mem_filter.mpr ⟨member, decide_eq_true swept⟩)⟩
  obtain ⟨late, isSwept, isNewest⟩ := Finset.exists_max_image _ age nonempty
  obtain ⟨member, swept⟩ := List.mem_filter.mp (List.mem_toFinset.mp isSwept)
  refine ⟨late, member, of_decide_eq_true swept, fun other isOther otherSwept => ?_⟩
  exact isNewest other (List.mem_toFinset.mpr (List.mem_filter.mpr
    ⟨isOther, decide_eq_true otherSwept⟩))

/-- What is kept and not older than the newest of the names that are swept is enough. -/
theorem exists_newest_of_madeUp {package : Option Package} {entries : List (List Char)} {keep : Nat}
    (madeUp : OvertakersMadeUp package entries keep) :
    ∃ chosen : List (List Char), chosen.Subperm (versionNames entries) ∧
      chosen.length = min keep (versionNames entries).length ∧
      (∀ name ∈ chosen, IsKept package entries keep name) ∧
        ∀ late ∈ versionNames entries, ¬ IsKept package entries keep late →
          ∀ name ∈ chosen, ¬ Newer late name := by
  classical
  by_cases someSwept : ∃ late ∈ versionNames entries, ¬ IsKept package entries keep late
  · obtain ⟨late, member, swept, isNewest⟩ := exists_newest_swept someSwept
    have enough := (keep_le_countP_iff member swept).mpr (madeUp late member swept)
    rw [List.countP_eq_length_filter] at enough
    have inKept : ∀ name ∈ ((versionNames entries).filter fun name =>
        IsKept package entries keep name ∧ ¬ Newer late name).take
          (min keep (versionNames entries).length),
        IsKept package entries keep name ∧ ¬ Newer late name := fun name inChosen =>
      of_decide_eq_true (List.mem_filter.mp (List.mem_of_mem_take inChosen)).2
    refine ⟨_, ((List.take_sublist _ _).trans List.filter_sublist).subperm, ?_,
      fun name inChosen => (inKept name inChosen).1, ?_⟩
    · rw [List.length_take, Nat.min_eq_left enough]
    · intro other isOther otherSwept name inChosen newer
      have notNewer := isNewest other isOther otherSwept
      exact (inKept name inChosen).2 (newer_iff.mpr ((newer_iff.mp newer).trans_le notNewer))
  · push Not at someSwept
    exact ⟨(versionNames entries).take keep, (List.take_sublist _ _).subperm, List.length_take,
      fun name inChosen => someSwept name (List.mem_of_mem_take inChosen),
      fun other isOther otherSwept => absurd (someSwept other isOther) otherSwept⟩

/-- The pass keeps the newest versions just where the dev generation is kept and the names that
overtook a newer one are made up for. -/
theorem keepsNewest_iff (package : Option Package) (entries : List (List Char)) (keep : Nat) :
    KeepsNewest package entries keep (generationKeepNames package entries keep) ↔
      (∀ record ∈ package, ∀ name ∈ record.publishedDev, IsKept package entries keep name) ∧
        OvertakersMadeUp package entries keep := by
  classical
  constructor
  · rintro ⟨_, dev, chosen, isPart, isCount, allKept, noneOlder⟩
    refine ⟨fun record isRecord name isDev => ?_, fun late member swept => ?_⟩
    · exact mem_generationKeepNames_iff.mp (dev record isRecord name isDev)
    · refine (keep_le_countP_iff member swept).mp ?_
      have counted := isPart.countP_le fun name =>
        decide (IsKept package entries keep name ∧ ¬ Newer late name)
      rw [List.countP_eq_length.mpr fun name inChosen => ?_, isCount] at counted
      · exact counted
      · exact decide_eq_true ⟨mem_generationKeepNames_iff.mp (allKept name inChosen),
          noneOlder late member (mt mem_generationKeepNames_iff.mp swept) name inChosen⟩
  · rintro ⟨dev, madeUp⟩
    refine ⟨?_, ?_, ?_⟩
    · rintro record isRecord
      refine mem_generationKeepNames_iff.mpr (.inl ?_)
      rw [Option.mem_def.mp isRecord]
      exact List.mem_append_left _ List.mem_cons_self
    · exact fun record isRecord name isDev =>
        mem_generationKeepNames_iff.mpr (dev record isRecord name isDev)
    · obtain ⟨chosen, isPart, isCount, allKept, noneOlder⟩ := exists_newest_of_madeUp madeUp
      refine ⟨chosen, isPart, isCount, fun name inChosen => ?_, ?_⟩
      · exact mem_generationKeepNames_iff.mpr (allKept name inChosen)
      · exact fun late member swept =>
          noneOlder late member (mt mem_generationKeepNames_iff.mpr swept)

/-! ### A release that is swept before its pre-release -/

def candidateNames : List (List Char) := ["1.0.0-rc1".toList, "1.0.0".toList, "2.0.0".toList]

def secondRelease : Package where
  packageName := none
  current := "2.0.0".toList
  versions := candidateNames
  bins := .empty
  destination := none
  dev := none
  devGeneration := none
  channel := none
  source := none

theorem not_keepsNewest_candidate : ¬ ∀ (package : Option Package) (entries : List (List Char))
    (keep : Nat), KeepsNewest package entries keep (generationKeepNames package entries keep) := by
  intro claimed
  obtain ⟨_, _, chosen, isPart, isCount, allKept, noneOlder⟩ :=
    claimed (some secondRelease) candidateNames 2
  have isVersions : versionNames candidateNames = candidateNames := by decide
  have isKept : generationKeepNames (some secondRelease) candidateNames 2 =
      ["2.0.0".toList, "2.0.0".toList, "1.0.0-rc1".toList] := by
    decide
  rw [isVersions] at isPart isCount noneOlder
  rw [isKept] at allKept noneOlder
  have newer : Newer "1.0.0".toList "1.0.0-rc1".toList := by
    have release : SemVer.parse "1.0.0".toList = some ⟨1, 0, 0, none⟩ := by decide
    have candidate : SemVer.parse "1.0.0-rc1".toList = some ⟨1, 0, 0, some "rc1".toList⟩ := by
      decide
    refine ⟨_, release, fun other isOther => ?_⟩
    cases candidate.symm.trans isOther
    decide
  have notChosen : "1.0.0-rc1".toList ∉ chosen := fun member =>
    noneOlder "1.0.0".toList (by decide) (by decide) _ member newer
  have onlyCurrent : ∀ name ∈ chosen, name = "2.0.0".toList := by
    intro name member
    have inKept := allKept name member
    simp only [List.mem_cons, List.not_mem_nil, or_false] at inKept
    rcases inKept with isCurrent | isCurrent | rfl
    · exact isCurrent
    · exact isCurrent
    · exact absurd member notChosen
  have counted := isPart.count_le "2.0.0".toList
  rw [List.count_eq_length.mpr fun name member => (onlyCurrent name member).symm, isCount]
    at counted
  revert counted
  decide

end Ynpm
