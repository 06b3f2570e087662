import Mathlib.Order.Compare
import Mathlib.Order.WithBot
import Yggterm.Library.Paths
import Yggterm.Library.Search

/-!
# Versions

A loose semver: three numbers and a tag of a pre-release.  Build metadata is dropped.
-/

namespace Ynpm

structure SemVer where
  major : Nat
  minor : Nat
  patch : Nat
  pre : Option (List Char)
  deriving DecidableEq

namespace SemVer

/-- `split_once`. -/
def splitOnce (separator : Char) (text : List Char) : Option (List Char × List Char) :=
  Search.findText [separator] text

def parse (text : List Char) : Option SemVer :=
  let text := Text.trim text
  let withoutBuild := match splitOnce '+' text with
    | some (base, _) => base
    | none => text
  let parts : List Char × Option (List Char) := match splitOnce '-' withoutBuild with
    | some (core, pre) => (core, some pre)
    | none => (withoutBuild, none)
  match parts.1.splitOn '.' with
  | [major, minor, patch] =>
      (Text.parseUnsigned 64 major).bind fun major =>
        (Text.parseUnsigned 64 minor).bind fun minor =>
          (Text.parseUnsigned 64 patch).map fun patch => ⟨major, minor, patch, parts.2⟩
  | _ => none

/-- A pre-release stands below its own release. -/
def cmpSemver (first second : SemVer) : Ordering :=
  let triple := ((cmp first.major second.major).then (cmp first.minor second.minor)).then
    (cmp first.patch second.patch)
  if triple ≠ .eq then triple
  else match first.pre, second.pre with
    | none, none => .eq
    | some _, none => .lt
    | none, some _ => .gt
    | some pre, some otherPre => cmp pre otherPre

@[simp]
theorem cmpSemver_self (version : SemVer) : cmpSemver version version = .eq := by
  rw [cmpSemver, cmp_self_eq_eq, cmp_self_eq_eq, cmp_self_eq_eq]
  cases version.pre with
  | none => rfl
  | some pre =>
      have same : cmp pre pre = .eq := by
        rw [cmp, cmpUsing, if_neg (List.lt_irrefl pre), if_neg (List.lt_irrefl pre)]
      exact same

/-- What the retention pass sorts by: here a pre-release stands above its own release. -/
def rank (text : List Char) : Nat ×ₗ Nat ×ₗ Nat ×ₗ WithBot (List Char) :=
  match parse text with
  | some version =>
      toLex (version.major, toLex (version.minor, toLex (version.patch, version.pre)))
  | none => toLex (0, toLex (0, toLex (0, some "~unparseable".toList)))

end SemVer

/-- A pin that names one version; a tag is discovery. -/
def pinIsExplicit (pin : Option (List Char)) : Bool :=
  pin.any fun pin => (SemVer.parse pin).isSome

/-- When the note of a refusal is printed: the registry answers less than what is installed. -/
def downgradeRefusalNote (installed resolved : List Char) : Bool :=
  match SemVer.parse installed, SemVer.parse resolved with
  | some have_, some want => SemVer.cmpSemver have_ want == .gt
  | _, _ => false

/-- By `cmp_semver`, where both are versions. -/
def AtLeastAsNew (before after : List Char) : Prop :=
  ∀ first ∈ SemVer.parse before, ∀ second ∈ SemVer.parse after,
    SemVer.cmpSemver first second ≠ .gt

theorem downgradeRefusalNote_eq_true_iff {installed resolved : List Char} :
    downgradeRefusalNote installed resolved = true ↔
      ∃ first ∈ SemVer.parse installed, ∃ second ∈ SemVer.parse resolved,
        SemVer.cmpSemver first second = .gt := by
  rw [downgradeRefusalNote]
  cases isInstalled : SemVer.parse installed with
  | none => simp
  | some first =>
      cases isResolved : SemVer.parse resolved with
      | none => simp
      | some second => simp

theorem atLeastAsNew_iff {before after : List Char} :
    AtLeastAsNew before after ↔ downgradeRefusalNote before after = false := by
  rw [← Bool.not_eq_true, downgradeRefusalNote_eq_true_iff]
  simp [AtLeastAsNew]

theorem atLeastAsNew_self (version : List Char) : AtLeastAsNew version version := by
  intro first isFirst second isSecond
  obtain rfl : first = second := Option.mem_unique isFirst isSecond
  simp

/-- What a binary answers names the version of its package. -/
def versionAnswerMatches (answer expected : List Char) : Bool :=
  let answer := Text.trim answer
  !answer.isEmpty && (answer == expected || (Search.findText expected answer).isSome)

/-- The last word of the answer that is a version. -/
def versionFromAnswer (answer : List Char) : Option (List Char) :=
  let tokens := (answer.splitOnP Text.isWhitespace).filter fun token => !token.isEmpty
  let bare := tokens.map fun token => token.dropWhile (· = 'v')
  bare.reverse.find? fun token => (SemVer.parse token).isSome

def versionAnswerMatchesIdentity (answer expected : List Char) : Bool :=
  versionAnswerMatches answer expected ||
    match SemVer.parse ((versionFromAnswer answer).getD []), SemVer.parse expected with
    | some actual, some expected =>
        actual.major = expected.major ∧ actual.minor = expected.minor ∧
          actual.patch = expected.patch
    | _, _ => false

/-! ## What a binary answers for its version

The gate before an install looks for the text of the version anywhere in the answer, then for a
word that is a version. -/

/-- The words of an answer, without the `v` that some tools put before a version. -/
def bareTokens (answer : List Char) : List (List Char) :=
  ((answer.splitOnP Text.isWhitespace).filter fun token => !token.isEmpty).map fun token =>
    token.dropWhile (· = 'v')

/-- Two versions with the same three numbers. -/
def SameNumbers (first second : List Char) : Prop :=
  ∃ actual ∈ SemVer.parse first, ∃ expected ∈ SemVer.parse second,
    actual.major = expected.major ∧ actual.minor = expected.minor ∧ actual.patch = expected.patch

/-- What is accepted names the version, and what names it last is accepted. -/
structure GateIsHonest (answer expected : List Char) : Prop where
  honest : versionAnswerMatchesIdentity answer expected = true →
    ∃ token ∈ bareTokens answer, SameNumbers token expected
  complete : versionFromAnswer answer = some expected →
    versionAnswerMatchesIdentity answer expected = true

theorem mem_of_versionFromAnswer {answer token : List Char}
    (found : versionFromAnswer answer = some token) :
    token ∈ bareTokens answer :=
  List.mem_reverse.mp (List.mem_of_find?_eq_some found)

theorem parse_nil : SemVer.parse [] = none := by decide

theorem versionAnswerMatches_eq_true_iff {answer expected : List Char}
    (parses : (SemVer.parse expected).isSome = true) :
    versionAnswerMatches answer expected = true ↔ expected <:+: Text.trim answer := by
  have nonempty : expected ≠ [] := by
    rintro rfl
    rw [parse_nil] at parses
    cases parses
  rw [versionAnswerMatches, Bool.and_eq_true, Bool.or_eq_true, Bool.not_eq_true',
    List.isEmpty_eq_false_iff, beq_iff_eq, Option.isSome_iff_ne_none]
  simp only [ne_eq, Search.findText_eq_none_iff, not_not]
  constructor
  · rintro ⟨_, same | inside⟩
    · rw [same]
    · exact inside
  · intro inside
    refine ⟨fun empty => nonempty ?_, .inr inside⟩
    exact List.infix_nil.mp (empty ▸ inside)

theorem versionAnswerMatchesIdentity_eq_true_iff {answer expected : List Char}
    (parses : (SemVer.parse expected).isSome = true) :
    versionAnswerMatchesIdentity answer expected = true ↔ expected <:+: Text.trim answer ∨
      ∃ token ∈ versionFromAnswer answer, SameNumbers token expected := by
  rw [versionAnswerMatchesIdentity, Bool.or_eq_true, versionAnswerMatches_eq_true_iff parses]
  refine or_congr_right ?_
  obtain ⟨wanted, isWanted⟩ := Option.isSome_iff_exists.mp parses
  rw [isWanted]
  cases found : versionFromAnswer answer with
  | none => simp [parse_nil]
  | some token =>
      cases isActual : SemVer.parse token with
      | none => simp [SameNumbers, isActual]
      | some actual => simp [SameNumbers, isActual, isWanted]

/-- The gate is honest where the text of the version does not stand in an answer that names other
versions only. -/
theorem gateIsHonest_iff {answer expected : List Char}
    (parses : (SemVer.parse expected).isSome = true) :
    GateIsHonest answer expected ↔
      (expected <:+: Text.trim answer →
        ∃ token ∈ bareTokens answer, SameNumbers token expected) := by
  constructor
  · intro gate inside
    exact gate.honest ((versionAnswerMatchesIdentity_eq_true_iff parses).mpr (.inl inside))
  · intro named
    constructor
    · intro accepted
      rcases (versionAnswerMatchesIdentity_eq_true_iff parses).mp accepted with
        inside | ⟨token, found, same⟩
      · exact named inside
      · exact ⟨token, mem_of_versionFromAnswer found, same⟩
    · intro found
      obtain ⟨wanted, isWanted⟩ := Option.isSome_iff_exists.mp parses
      refine (versionAnswerMatchesIdentity_eq_true_iff parses).mpr (.inr ⟨expected, found, ?_⟩)
      exact ⟨wanted, isWanted, wanted, isWanted, rfl, rfl, rfl⟩

theorem gateIsHonest_ychrome : GateIsHonest "ychrome 10.2.1".toList "0.2.1".toList ↔
    ("0.2.1".toList <:+: Text.trim "ychrome 10.2.1".toList →
      ∃ token ∈ bareTokens "ychrome 10.2.1".toList, SameNumbers token "0.2.1".toList) :=
  gateIsHonest_iff (by decide)

/-- Version 10.2.1 contains the text of version 0.2.1. -/
theorem not_gateIsHonest_ychrome : ¬ ∀ answer expected : List Char,
    (SemVer.parse expected).isSome = true → GateIsHonest answer expected := by
  intro claimed
  have gate := claimed "ychrome 10.2.1".toList "0.2.1".toList (by decide)
  obtain ⟨token, member, actual, isActual, wanted, isWanted, same, _⟩ :=
    gate.honest (by decide)
  have tokens : bareTokens "ychrome 10.2.1".toList = ["ychrome".toList, "10.2.1".toList] := by
    decide
  have isZero : SemVer.parse "0.2.1".toList = some ⟨0, 2, 1, none⟩ := by decide
  have isTen : SemVer.parse "10.2.1".toList = some ⟨10, 2, 1, none⟩ := by decide
  have isName : SemVer.parse "ychrome".toList = none := by decide
  rw [isZero] at isWanted
  cases isWanted
  rw [tokens] at member
  rcases List.mem_cons.mp member with rfl | last
  · rw [isName] at isActual
    cases isActual
  · rw [List.mem_singleton.mp last, isTen] at isActual
    cases isActual
    cases same

end Ynpm
