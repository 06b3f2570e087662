import Yggterm.Library.Lines
import Yggterm.RowSets.Model

/-!
# The seats of children

`session_outline.rs` writes seats as dotted numbers, and derives the seat of the next child from
the seats that are there.  The sum of a number and one panics or wraps, as the build has it.
-/

namespace Yggterm.RowSets

open Text

/-- `u64::MAX` -/
def maxSegment : Nat := 2 ^ 64 - 1

def dotted (segments : List Nat) : List Char := ['.'].intercalate (segments.map (Nat.toDigits 10))

/-- `none` stands for the refusal, which quotes the text. -/
def normalizeOutlinePrefix (text : List Char) : Option (Option (List Char)) :=
  let trimmed := trim ((trim text).rdropWhile (· = '.'))
  if trimmed = [] then some none
  else
    match parseOutlineKey (some trimmed) with
    | .numbered segments => some (some (dotted segments))
    | .unnumbered => none

inductive Build where
  | checked
  | wrapping
  deriving DecidableEq

/-- `value + 1` of a `u64`; `none` is a panic. -/
def Build.addOne (build : Build) (value : Nat) : Option Nat :=
  if value < maxSegment then some (value + 1)
  else
    match build with
    | checked => none
    | wrapping => some 0

theorem Build.addOne_of_lt (build : Build) {value : Nat} (below : value < maxSegment) :
    build.addOne value = some (value + 1) :=
  if_pos below

/-- The last number of a direct child. -/
def directChild (parent : List Nat) (child : List Char) : Option Nat :=
  match parseOutlineKey (some child) with
  | .unnumbered => none
  | .numbered segments =>
      if segments.length = parent.length + 1 ∧ parent <+: segments then segments[parent.length]?
      else none

def raiseHighest (parent : List Nat) (highest : Nat) (child : List Char) : Nat :=
  match directChild parent child with
  | some number => max highest number
  | none => highest

/-- The inner value is `none` for an unnumbered parent, the outer one where the sum panics. -/
def deriveChildOutlinePrefix (build : Build) (parentPrefix : Option (List Char))
    (existingChildPrefixes : List (List Char)) : Option (Option (List Char)) :=
  match parseOutlineKey parentPrefix with
  | .unnumbered => some none
  | .numbered parent =>
      let highest := existingChildPrefixes.foldl (raiseHighest parent) 0
      (build.addOne highest).map fun number => some (dotted (parent ++ [number]))

/-- The order in which `sort_by_outline` puts keys. -/
def OutlineKey.Before : OutlineKey → OutlineKey → Prop
  | .numbered first, .numbered second => first < second
  | .numbered _, .unnumbered => True
  | .unnumbered, _ => False

/-! ## Written seats -/

theorem digits_or_dot {segments : List Nat} {char : Char} (member : char ∈ dotted segments) :
    char = '.' ∨ char.isDigit = true := by
  rcases mem_of_mem_intercalate member with isDot | ⟨digits, isSegment, inDigits⟩
  · exact .inl isDot
  · obtain ⟨segment, _, rfl⟩ := List.mem_map.mp isSegment
    exact .inr (Nat.isDigit_of_mem_toDigits (by decide) (by decide) inDigits)

theorem dot_not_mem_toDigits (segment : Nat) : '.' ∉ Nat.toDigits 10 segment := by
  intro member
  exact absurd (Nat.isDigit_of_mem_toDigits (by decide) (by decide) member) (by decide)

theorem trim_dotted (segments : List Nat) : trim (dotted segments) = dotted segments := by
  apply trim_of_forall_not_isWhitespace
  intro char member
  rcases digits_or_dot member with rfl | digit
  · decide
  · exact isWhitespace_of_isDigit digit

theorem dotted_ne_nil {segments : List Nat} (nonempty : segments ≠ []) : dotted segments ≠ [] := by
  obtain ⟨first, rest, rfl⟩ := List.exists_cons_of_ne_nil nonempty
  cases rest with
  | nil => simp [dotted]
  | cons second others => simp [dotted, List.intercalate]

theorem rdropWhile_dotted {segments : List Nat} (nonempty : segments ≠ []) :
    (dotted segments).rdropWhile (· = '.') = dotted segments := by
  apply List.rdropWhile_eq_self_iff.mpr
  intro _ isDot
  obtain ⟨front, last, rfl⟩ := List.eq_nil_or_concat' segments |>.resolve_left nonempty
  have isText : dotted (front ++ [last]) =
      (front.map (Nat.toDigits 10)).flatMap (fun digits => digits ++ ['.']) ++
        Nat.toDigits 10 last := by
    rw [dotted, List.map_append, List.map_singleton, intercalate_append (by simp)]
    simp
  simp only [isText, List.getLast_append_of_ne_nil _ Nat.toDigits_ne_nil,
    decide_eq_true_eq] at isDot
  exact dot_not_mem_toDigits last (isDot ▸ List.getLast_mem Nat.toDigits_ne_nil)

theorem mapM_toDigits {segments : List Nat} (small : ∀ segment ∈ segments, segment < 2 ^ 64) :
    ((segments.map (Nat.toDigits 10)).mapM fun segment => parseUnsigned 64 (trim segment)) =
      some segments := by
  induction segments with
  | nil => rfl
  | cons first rest inductionHypothesis =>
      obtain ⟨firstSmall, restSmall⟩ := List.forall_mem_cons.mp small
      rw [List.map_cons, List.mapM_cons, trim_toDigits, parseUnsigned_toDigits,
        if_pos firstSmall, inductionHypothesis restSmall]
      rfl

/-- A written seat is read back. -/
theorem parseOutlineKey_dotted {segments : List Nat} (nonempty : segments ≠ [])
    (small : ∀ segment ∈ segments, segment < 2 ^ 64) :
    parseOutlineKey (some (dotted segments)) = .numbered segments := by
  have parts : (dotted segments).splitOn '.' = segments.map (Nat.toDigits 10) := by
    apply List.splitOn_intercalate
    · intro digits isSegment
      obtain ⟨segment, _, rfl⟩ := List.mem_map.mp isSegment
      exact dot_not_mem_toDigits segment
    · simpa using nonempty
  simp only [parseOutlineKey, trim_dotted, rdropWhile_dotted nonempty,
    if_neg (dotted_ne_nil nonempty), parts, mapM_toDigits small]

theorem length_mapM {parts : List (List Char)} {segments : List Nat}
    (read : (parts.mapM fun segment => parseUnsigned 64 (trim segment)) = some segments) :
    segments.length = parts.length ∧ ∀ segment ∈ segments, segment < 2 ^ 64 := by
  induction parts generalizing segments with
  | nil =>
      cases read
      simp
  | cons part rest inductionHypothesis =>
      rw [List.mapM_cons] at read
      obtain ⟨first, isFirst, later⟩ := Option.bind_eq_some_iff.mp read
      obtain ⟨others, isOthers, done⟩ := Option.bind_eq_some_iff.mp later
      cases done
      obtain ⟨sameLength, small⟩ := inductionHypothesis isOthers
      refine ⟨by simp [sameLength], List.forall_mem_cons.mpr ⟨?_, small⟩⟩
      exact lt_of_parseUnsigned isFirst

/-- The numbers of a seat are of 64 bits, and there is one. -/
theorem bounds_of_parseOutlineKey {text : Option (List Char)} {segments : List Nat}
    (isKey : parseOutlineKey text = .numbered segments) :
    segments ≠ [] ∧ ∀ segment ∈ segments, segment < 2 ^ 64 := by
  cases text with
  | none => cases isKey
  | some text =>
      simp only [parseOutlineKey] at isKey
      split at isKey
      · cases isKey
      · split at isKey
        · next isRead =>
            cases isKey
            obtain ⟨sameLength, small⟩ := length_mapM isRead
            refine ⟨?_, small⟩
            rintro rfl
            exact List.splitOn_ne_nil _ _ (List.length_eq_zero_iff.mp sameLength.symm)
        · cases isKey

/-- A normalised seat is numbered, and stays as it is. -/
theorem normalizeOutlinePrefix_normalized {text stored : List Char}
    (isStored : normalizeOutlinePrefix text = some (some stored)) :
    (∃ segments, parseOutlineKey (some stored) = .numbered segments) ∧
      normalizeOutlinePrefix stored = some (some stored) := by
  simp only [normalizeOutlinePrefix] at isStored
  split at isStored
  · cases isStored
  · split at isStored
    · next segments isKey =>
        cases isStored
        obtain ⟨nonempty, small⟩ := bounds_of_parseOutlineKey isKey
        have back := parseOutlineKey_dotted nonempty small
        refine ⟨⟨segments, back⟩, ?_⟩
        simp only [normalizeOutlinePrefix, trim_dotted, rdropWhile_dotted nonempty,
          if_neg (dotted_ne_nil nonempty), back]
    · cases isStored

/-! ## The next child -/

theorem directChild_eq_some_iff {parent : List Nat} {child : List Char} {number : Nat} :
    directChild parent child = some number ↔
      parseOutlineKey (some child) = .numbered (parent ++ [number]) := by
  rw [directChild]
  cases parseOutlineKey (some child) with
  | unnumbered => simp
  | numbered segments =>
      simp only [OutlineKey.numbered.injEq]
      constructor
      · intro isNumber
        split at isNumber
        · next isChild =>
            obtain ⟨sameLength, rest, rfl⟩ := isChild
            obtain ⟨last, rfl⟩ := List.length_eq_one_iff.mp (by simpa using sameLength)
            simpa using isNumber
        · cases isNumber
      · rintro rfl
        simp

theorem directChild_le {parent : List Nat} {child : List Char} {number : Nat}
    (isChild : directChild parent child = some number) : number ≤ maxSegment := by
  have small := (bounds_of_parseOutlineKey (directChild_eq_some_iff.mp isChild)).2
  have below := small number (by simp)
  rw [maxSegment]
  omega

/-- The number that the loop ends with. -/
structure Highest (parent : List Nat) (existing : List (List Char)) (start highest : Nat) :
    Prop where
  start_le : start ≤ highest
  child_le : ∀ child ∈ existing, ∀ number, directChild parent child = some number →
    number ≤ highest
  reached : highest = start ∨ ∃ child ∈ existing, directChild parent child = some highest

theorem highest_foldl (parent : List Nat) (existing : List (List Char)) (start : Nat) :
    Highest parent existing start (existing.foldl (raiseHighest parent) start) := by
  induction existing generalizing start with
  | nil => exact ⟨Nat.le_refl start, by simp, .inl rfl⟩
  | cons child rest inductionHypothesis =>
      have later := inductionHypothesis (raiseHighest parent start child)
      cases isChild : directChild parent child with
      | none =>
          have same : raiseHighest parent start child = start := by simp [raiseHighest, isChild]
          rw [List.foldl_cons, same]
          rw [same] at later
          refine ⟨later.start_le, ?_, ?_⟩
          · simpa [isChild] using later.child_le
          · exact later.reached.imp_right fun ⟨other, member, isOther⟩ =>
              ⟨other, List.mem_cons_of_mem child member, isOther⟩
      | some number =>
          have raised : raiseHighest parent start child = max start number := by
            simp [raiseHighest, isChild]
          rw [List.foldl_cons, raised]
          rw [raised] at later
          refine ⟨(Nat.le_max_left _ _).trans later.start_le, ?_, ?_⟩
          · rw [List.forall_mem_cons]
            refine ⟨?_, later.child_le⟩
            intro other isOther
            rw [isChild, Option.some.injEq] at isOther
            rw [← isOther]
            exact (Nat.le_max_right _ _).trans later.start_le
          · rcases later.reached with isStart | ⟨other, member, isOther⟩
            · rcases max_choice start number with isMax | isMax
              · exact .inl (isStart.trans isMax)
              · refine .inr ⟨child, List.mem_cons_self, ?_⟩
                rw [isStart, isMax, isChild]
            · exact .inr ⟨other, List.mem_cons_of_mem child member, isOther⟩

/-- The derived prefix is read as a direct child behind all that are there. -/
def FreshAndLast (build : Build) (parentPrefix : Option (List Char)) (parent : List Nat)
    (existing : List (List Char)) : Prop :=
  ∃ child, deriveChildOutlinePrefix build parentPrefix existing = some (some child) ∧
    ∃ number, parseOutlineKey (some child) = .numbered (parent ++ [number]) ∧
      ∀ other ∈ existing, ∀ taken,
        parseOutlineKey (some other) = .numbered (parent ++ [taken]) →
          OutlineKey.Before (parseOutlineKey (some other)) (parseOutlineKey (some child))

theorem append_lt_append_iff (parent : List Nat) (first second : Nat) :
    parent ++ [first] < parent ++ [second] ↔ first < second := by
  induction parent with
  | nil => simp [List.cons_lt_cons_iff]
  | cons segment rest inductionHypothesis =>
      simpa [List.cons_lt_cons_iff] using inductionHypothesis

/-- No number is behind the last one. -/
theorem not_freshAndLast_of_last {build : Build} {parentPrefix : Option (List Char)}
    {parent : List Nat} {existing : List (List Char)} {last : List Char} (member : last ∈ existing)
    (isLast : parseOutlineKey (some last) = .numbered (parent ++ [maxSegment])) :
    ¬FreshAndLast build parentPrefix parent existing := by
  rintro ⟨child, _, number, isKey, behind⟩
  have number_le := directChild_le (directChild_eq_some_iff.mpr isKey)
  have before := behind last member maxSegment isLast
  rw [isLast, isKey, OutlineKey.Before, append_lt_append_iff] at before
  omega

/-- The next child is fresh and last exactly where no child has the last number there is. -/
theorem freshAndLast_iff (build : Build) (parentPrefix : Option (List Char)) (parent : List Nat)
    (existing : List (List Char)) (isParent : parseOutlineKey parentPrefix = .numbered parent) :
    FreshAndLast build parentPrefix parent existing ↔
      ∀ child ∈ existing, parseOutlineKey (some child) ≠ .numbered (parent ++ [maxSegment]) := by
  have highest := highest_foldl parent existing 0
  have derived : deriveChildOutlinePrefix build parentPrefix existing =
      (build.addOne (existing.foldl (raiseHighest parent) 0)).map fun number =>
        some (dotted (parent ++ [number])) := by
    rw [deriveChildOutlinePrefix, isParent]
  constructor
  · intro fresh child member isLast
    exact not_freshAndLast_of_last member isLast fresh
  · intro free
    have below : existing.foldl (raiseHighest parent) 0 < maxSegment := by
      rcases highest.reached with isStart | ⟨child, member, isChild⟩
      · rw [isStart]
        decide
      · have isKey := directChild_eq_some_iff.mp isChild
        refine lt_of_le_of_ne (directChild_le isChild) ?_
        intro isMax
        rw [isMax] at isKey
        exact free child member isKey
    have isKey : parseOutlineKey (some (dotted
        (parent ++ [existing.foldl (raiseHighest parent) 0 + 1]))) =
        .numbered (parent ++ [existing.foldl (raiseHighest parent) 0 + 1]) := by
      apply parseOutlineKey_dotted (by simp)
      intro segment member
      rcases List.mem_append.mp member with inParent | isLast
      · exact (bounds_of_parseOutlineKey isParent).2 segment inParent
      · rw [List.mem_singleton.mp isLast]
        rw [maxSegment] at below
        omega
    refine ⟨_, ?_, _, isKey, ?_⟩
    · rw [derived, build.addOne_of_lt below]
      rfl
    · intro other member taken isOther
      have taken_le := highest.child_le other member taken (directChild_eq_some_iff.mpr isOther)
      rw [isOther, isKey, OutlineKey.Before, append_lt_append_iff]
      omega

theorem freshAndLast_padded_children :
    FreshAndLast .wrapping (some "5.".toList) [5] [" 5.02".toList, "5.7.1".toList, "x".toList] ↔
      ∀ child ∈ [" 5.02".toList, "5.7.1".toList, "x".toList],
        parseOutlineKey (some child) ≠ .numbered ([5] ++ [maxSegment]) :=
  freshAndLast_iff .wrapping (some "5.".toList) [5] [" 5.02".toList, "5.7.1".toList, "x".toList]
    (by decide)

/-- A child that has the last number. -/
def lastChild : List Char := "1.18446744073709551615".toList

theorem not_freshAndLast_behind_last :
    parseOutlineKey (some ['1']) = .numbered [1] ∧
      ¬FreshAndLast .checked (some ['1']) [1] [lastChild] ∧
      ¬FreshAndLast .wrapping (some ['1']) [1] [lastChild] := by
  have isLast : parseOutlineKey (some lastChild) = .numbered ([1] ++ [maxSegment]) := by decide
  exact ⟨by decide, not_freshAndLast_of_last List.mem_cons_self isLast,
    not_freshAndLast_of_last List.mem_cons_self isLast⟩

end Yggterm.RowSets
