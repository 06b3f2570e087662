import Mathlib.Data.List.Flatten
import Mathlib.Data.List.Nodup
import Mathlib.Data.List.Perm.Basic
import Mathlib.Data.List.TakeWhile

/-!
# Rows behind their anchors

Some rows of a list are anchors; every other row stands behind the nearest anchor
before it, or in front of all of them.  `weave` puts the anchors into an order of
their own and lets the other rows follow.
-/

namespace Anchors

universe u

variable {Row : Type u}

section

variable (isAnchor : Row → Bool)

/-- The rows before the first anchor. -/
def front (rows : List Row) : List Row := rows.takeWhile fun row => !isAnchor row

variable [DecidableEq Row]

/-- The rows between an anchor and the next. -/
def behind (anchor : Row) (rows : List Row) : List Row :=
  front isAnchor ((rows.dropWhile (· ≠ anchor)).drop 1)

/-- The anchors in the given order, each followed by the rows behind it. -/
def weave (anchors rows : List Row) : List Row :=
  front isAnchor rows ++ anchors.flatMap fun anchor => anchor :: behind isAnchor anchor rows

end

variable {isAnchor : Row → Bool}

/-! ## Single segments -/

theorem front_cons_of_anchor {row : Row} (anchored : isAnchor row = true) (rest : List Row) :
    front isAnchor (row :: rest) = [] := by
  simp [front, anchored]

theorem front_cons_of_not {row : Row} (loose : isAnchor row = false) (rest : List Row) :
    front isAnchor (row :: rest) = row :: front isAnchor rest := by
  simp [front, loose]

theorem isAnchor_of_mem_front {row : Row} {rows : List Row} (member : row ∈ front isAnchor rows) :
    isAnchor row = false := by
  simpa using List.mem_takeWhile_imp member

/-- Loose rows, then an anchor or nothing. -/
theorem front_append {loose rest : List Row} (isLoose : ∀ row ∈ loose, isAnchor row = false)
    (stops : front isAnchor rest = []) : front isAnchor (loose ++ rest) = loose := by
  rw [front, List.takeWhile_append_of_pos (by simpa using isLoose)]
  change loose ++ front isAnchor rest = loose
  rw [stops, List.append_nil]

variable [DecidableEq Row]

theorem behind_cons_self (anchor : Row) (rest : List Row) :
    behind isAnchor anchor (anchor :: rest) = front isAnchor rest := by
  simp [behind]

theorem behind_cons_of_ne {row anchor : Row} (different : row ≠ anchor) (rest : List Row) :
    behind isAnchor anchor (row :: rest) = behind isAnchor anchor rest := by
  simp [behind, different]

theorem behind_eq_nil {anchor : Row} {rows : List Row} (absent : anchor ∉ rows) :
    behind isAnchor anchor rows = [] := by
  have nothing : rows.dropWhile (· ≠ anchor) = [] := by
    apply List.dropWhile_eq_nil_iff.mpr
    intro row member
    exact decide_eq_true fun same => absent (same ▸ member)
  rw [behind, nothing]
  rfl

theorem behind_append {anchor : Row} {before rest : List Row} (absent : anchor ∉ before) :
    behind isAnchor anchor (before ++ anchor :: rest) = front isAnchor rest := by
  induction before with
  | nil => exact behind_cons_self anchor rest
  | cons row others inductionHypothesis =>
      obtain ⟨different, absentLater⟩ := not_or.mp (mt List.mem_cons.mpr absent)
      rw [List.cons_append, behind_cons_of_ne (Ne.symm different)]
      exact inductionHypothesis absentLater

theorem isAnchor_of_mem_behind {row anchor : Row} {rows : List Row}
    (member : row ∈ behind isAnchor anchor rows) : isAnchor row = false :=
  isAnchor_of_mem_front member

/-- Every list is woven from its own anchors. -/
theorem weave_filter_self {rows : List Row} (nodup : rows.Nodup) :
    weave isAnchor (rows.filter isAnchor) rows = rows := by
  induction rows with
  | nil => rfl
  | cons row rest inductionHypothesis =>
      obtain ⟨fresh, restNodup⟩ := List.nodup_cons.mp nodup
      have later : (rest.filter isAnchor).flatMap
            (fun anchor => anchor :: behind isAnchor anchor (row :: rest)) =
          (rest.filter isAnchor).flatMap (fun anchor => anchor :: behind isAnchor anchor rest) := by
        apply List.flatMap_congr
        intro anchor member
        have different : row ≠ anchor := fun same => fresh (same ▸ List.mem_of_mem_filter member)
        rw [behind_cons_of_ne different]
      have woven := inductionHypothesis restNodup
      rw [weave] at woven
      by_cases anchored : isAnchor row = true
      · rw [weave, front_cons_of_anchor anchored, List.filter_cons_of_pos anchored,
          List.flatMap_cons, behind_cons_self, later, List.nil_append, List.cons_append, woven]
      · have loose : isAnchor row = false := by simpa using anchored
        rw [weave, front_cons_of_not loose, List.filter_cons_of_neg anchored, later,
          List.cons_append, woven]

/-! ## Weaving -/

section

variable {anchors rows : List Row} (anchored : ∀ anchor ∈ anchors, isAnchor anchor = true)

include anchored

theorem front_flatMap : front isAnchor
    (anchors.flatMap fun anchor => anchor :: behind isAnchor anchor rows) = [] := by
  cases anchors with
  | nil => rfl
  | cons anchor rest =>
      rw [List.flatMap_cons, List.cons_append]
      exact front_cons_of_anchor (anchored anchor List.mem_cons_self) _

theorem front_weave : front isAnchor (weave isAnchor anchors rows) = front isAnchor rows :=
  front_append (fun _ member => isAnchor_of_mem_front member) (front_flatMap anchored)

theorem filter_weave : (weave isAnchor anchors rows).filter isAnchor = anchors := by
  have loose : (front isAnchor rows).filter isAnchor = [] := by
    apply List.filter_eq_nil_iff.mpr
    intro row member
    simp [isAnchor_of_mem_front member]
  rw [weave, List.filter_append, loose, List.nil_append]
  induction anchors with
  | nil => rfl
  | cons anchor rest inductionHypothesis =>
      have behindLoose : (behind isAnchor anchor rows).filter isAnchor = [] := by
        apply List.filter_eq_nil_iff.mpr
        intro row member
        simp [isAnchor_of_mem_behind member]
      have restAnchored : ∀ anchor ∈ rest, isAnchor anchor = true :=
        fun other member => anchored other (List.mem_cons_of_mem _ member)
      rw [List.flatMap_cons, List.filter_append,
        List.filter_cons_of_pos (anchored anchor List.mem_cons_self), behindLoose,
        inductionHypothesis restAnchored]
      rfl

theorem behind_weave (nodup : anchors.Nodup) {anchor : Row} (member : anchor ∈ anchors) :
    behind isAnchor anchor (weave isAnchor anchors rows) = behind isAnchor anchor rows := by
  obtain ⟨earlier, later, rfl⟩ := List.append_of_mem member
  have laterAnchored : ∀ other ∈ later, isAnchor other = true :=
    fun other inLater => anchored other (by simp [inLater])
  have notEarlier : anchor ∉ earlier := by
    intro inEarlier
    exact (List.nodup_append.mp nodup).2.2 anchor inEarlier anchor List.mem_cons_self rfl
  -- no loose row is an anchor, so the anchor's first place is its own
  have notBefore : anchor ∉ front isAnchor rows ++
      earlier.flatMap (fun other => other :: behind isAnchor other rows) := by
    have isAnchored := anchored anchor member
    intro inBefore
    rcases List.mem_append.mp inBefore with inFront | inSegments
    · simp [isAnchor_of_mem_front inFront] at isAnchored
    · obtain ⟨other, inEarlier, inSegment⟩ := List.mem_flatMap.mp inSegments
      rcases List.mem_cons.mp inSegment with rfl | inBehind
      · exact notEarlier inEarlier
      · simp [isAnchor_of_mem_behind inBehind] at isAnchored
  rw [weave, List.flatMap_append, List.flatMap_cons, List.cons_append, ← List.append_assoc,
    behind_append notBefore]
  apply front_append _ (front_flatMap laterAnchored)
  exact fun _ inBehind => isAnchor_of_mem_behind inBehind

theorem filter_loose_weave : ((weave isAnchor anchors rows).filter fun row => !isAnchor row) =
    front isAnchor rows ++ anchors.flatMap fun anchor => behind isAnchor anchor rows := by
  have loose : (front isAnchor rows).filter (fun row => !isAnchor row) = front isAnchor rows := by
    apply List.filter_eq_self.mpr
    intro row member
    simp [isAnchor_of_mem_front member]
  rw [weave, List.filter_append, loose]
  congr 1
  induction anchors with
  | nil => rfl
  | cons anchor rest inductionHypothesis =>
      have isAnchored := anchored anchor List.mem_cons_self
      have behindLoose : (behind isAnchor anchor rows).filter (fun row => !isAnchor row) =
          behind isAnchor anchor rows := by
        apply List.filter_eq_self.mpr
        intro row member
        simp [isAnchor_of_mem_behind member]
      have restAnchored : ∀ anchor ∈ rest, isAnchor anchor = true :=
        fun other member => anchored other (List.mem_cons_of_mem _ member)
      rw [List.flatMap_cons, List.flatMap_cons, List.filter_append,
        List.filter_cons_of_neg (by simp [isAnchored]), behindLoose,
        inductionHypothesis restAnchored]

omit anchored in
theorem flatMap_behind (anchors : List Row) :
    (anchors.filter (· ∈ rows)).flatMap (fun anchor => behind isAnchor anchor rows) =
      anchors.flatMap fun anchor => behind isAnchor anchor rows := by
  induction anchors with
  | nil => rfl
  | cons anchor rest inductionHypothesis =>
      by_cases present : anchor ∈ rows
      · rw [List.filter_cons_of_pos (by simpa using present), List.flatMap_cons, List.flatMap_cons,
          inductionHypothesis]
      · rw [List.filter_cons_of_neg (by simpa using present), List.flatMap_cons,
          behind_eq_nil present, List.nil_append, inductionHypothesis]

/-- Weaving keeps every loose row, and has the anchors it is given. -/
theorem weave_perm (nodup : anchors.Nodup) (rowsNodup : rows.Nodup)
    (known : ∀ row ∈ rows, isAnchor row = true → row ∈ anchors) :
    (weave isAnchor anchors rows).Perm (anchors ++ rows.filter fun row => !isAnchor row) := by
  have own : (rows.filter fun row => !isAnchor row) = front isAnchor rows ++
      (rows.filter isAnchor).flatMap fun anchor => behind isAnchor anchor rows := by
    have ownAnchored : ∀ anchor ∈ rows.filter isAnchor, isAnchor anchor = true :=
      fun anchor member => (List.mem_filter.mp member).2
    have woven : (weave isAnchor (rows.filter isAnchor) rows).filter (!isAnchor ·) = _ :=
      filter_loose_weave ownAnchored
    rwa [weave_filter_self rowsNodup] at woven
  have sameAnchors : (anchors.filter (· ∈ rows)).Perm (rows.filter isAnchor) := by
    apply (List.perm_ext_iff_of_nodup (nodup.filter _) (rowsNodup.filter _)).mpr
    intro row
    simp only [List.mem_filter, decide_eq_true_eq]
    constructor
    · intro ⟨inAnchors, inRows⟩
      exact ⟨inRows, anchored row inAnchors⟩
    · intro ⟨inRows, isAnchored⟩
      exact ⟨known row inRows isAnchored, inRows⟩
  have sameSegments : (anchors.flatMap fun anchor => behind isAnchor anchor rows).Perm
      ((rows.filter isAnchor).flatMap fun anchor => behind isAnchor anchor rows) := by
    rw [← flatMap_behind anchors]
    exact sameAnchors.flatMap_right _
  have split := (List.filter_append_perm isAnchor (weave isAnchor anchors rows)).symm
  rw [filter_weave anchored, filter_loose_weave anchored] at split
  rw [own]
  exact split.trans ((sameSegments.append_left _).append_left _)

omit anchored in
/-- When the anchors come in the order the rows have them, the rows keep their order. -/
theorem sublist_weave (nodup : rows.Nodup)
    (sameOrder : anchors.filter (· ∈ rows) = rows.filter isAnchor) :
    rows.Sublist (weave isAnchor anchors rows) := by
  have own : weave isAnchor (rows.filter isAnchor) rows = rows := weave_filter_self nodup
  rw [← sameOrder] at own
  conv_lhs => rw [← own]
  exact (List.filter_sublist.flatMap _).append_left _

omit [DecidableEq Row] anchored in
/-- Anchors that are part of the rows, in their order, are the rows that are anchors. -/
theorem filter_of_sublist (nodup : rows.Nodup) (part : anchors.Sublist rows)
    (isPart : ∀ row, isAnchor row = true ↔ row ∈ anchors) : rows.filter isAnchor = anchors := by
  have chosen : anchors.filter isAnchor = anchors :=
    List.filter_eq_self.mpr fun row member => (isPart row).mpr member
  have inside : anchors.Sublist (rows.filter isAnchor) := chosen ▸ part.filter isAnchor
  apply Eq.symm
  apply inside.eq_of_length_le
  have noMore : rows.filter isAnchor ⊆ anchors :=
    fun row member => (isPart row).mp (List.mem_filter.mp member).2
  exact (nodup.filter _).length_le_of_subset noMore

omit anchored in
/-- They weave the rows again. -/
theorem weave_of_sublist (nodup : rows.Nodup) (part : anchors.Sublist rows)
    (isPart : ∀ row, isAnchor row = true ↔ row ∈ anchors) : weave isAnchor anchors rows = rows := by
  have woven : weave isAnchor (rows.filter isAnchor) rows = rows := weave_filter_self nodup
  rwa [filter_of_sublist nodup part isPart] at woven

end

/-! ## Weaving what was mixed up -/

section

variable {rows : List Row}

/-- Where every row is an anchor the anchors alone are woven. -/
theorem weave_of_all_anchors {anchors : List Row} (anchored : ∀ row ∈ anchors, isAnchor row = true)
    (same : rows.Perm anchors) (nodup : rows.Nodup) : weave isAnchor anchors rows = anchors := by
  have noLoose : (rows.filter fun row => !isAnchor row) = [] := by
    apply List.filter_eq_nil_iff.mpr
    intro row member
    simp [anchored row (same.mem_iff.mp member)]
  have woven := weave_perm anchored (same.nodup_iff.mp nodup) nodup
    fun row member _ => same.mem_iff.mp member
  rw [noLoose, List.append_nil] at woven
  have all : (weave isAnchor anchors rows).filter isAnchor = weave isAnchor anchors rows :=
    List.filter_eq_self.mpr fun row member => anchored row (woven.mem_iff.mp member)
  rw [← all, filter_weave anchored]

variable {earlier strays : List Row} {last : Row}
  (anchored : ∀ anchor ∈ earlier ++ [last], isAnchor anchor = true)
  (loose : ∀ row ∈ strays, isAnchor row = false)
  (same : rows.Perm (earlier ++ last :: strays)) (nodup : rows.Nodup)

include anchored loose same nodup

theorem length_loose : (front isAnchor rows ++
    (earlier ++ [last]).flatMap fun anchor => behind isAnchor anchor rows).length =
      strays.length := by
  have split : (earlier ++ last :: strays) = (earlier ++ [last]) ++ strays := by simp
  have anchorsNodup : (earlier ++ [last]).Nodup := by
    have bothNodup := same.nodup_iff.mp nodup
    rw [split] at bothNodup
    exact (List.nodup_append.mp bothNodup).1
  have ownLoose : ((earlier ++ last :: strays).filter fun row => !isAnchor row) = strays := by
    have none : ((earlier ++ [last]).filter fun row => !isAnchor row) = [] := by
      apply List.filter_eq_nil_iff.mpr
      intro row member
      simp [anchored row member]
    have all : (strays.filter fun row => !isAnchor row) = strays :=
      List.filter_eq_self.mpr fun row member => by simp [loose row member]
    rw [split, List.filter_append, none, all, List.nil_append]
  have known : ∀ row ∈ rows, isAnchor row = true → row ∈ earlier ++ [last] := by
    intro row member isAnchored
    have inBoth := same.mem_iff.mp member
    rw [split] at inBoth
    rcases List.mem_append.mp inBoth with inAnchors | inOver
    · exact inAnchors
    · simp [loose row inOver] at isAnchored
  have woven := weave_perm anchored anchorsNodup nodup known
  have counted := woven.length_eq
  rw [List.length_append, (same.filter _).length_eq, ownLoose] at counted
  have parts : (weave isAnchor (earlier ++ [last]) rows).length = _ :=
    List.length_eq_length_filter_add isAnchor
  rw [filter_weave anchored, filter_loose_weave anchored] at parts
  omega

theorem behind_last_of_infix (together : last :: strays <:+: rows) :
    behind isAnchor last rows = strays := by
  obtain ⟨before, after, isRows⟩ := together
  subst isRows
  have apart := List.nodup_append.mp nodup
  have notBefore : last ∉ before := by
    intro inBefore
    exact (List.nodup_append.mp apart.1).2.2 last inBefore last List.mem_cons_self rfl
  rw [List.append_assoc, List.cons_append, behind_append notBefore]
  apply front_append loose
  cases after with
  | nil => rfl
  | cons row rest =>
      apply front_cons_of_anchor
      apply anchored
      have elsewhere : row ∉ strays := by
        intro inOver
        exact apart.2.2 row (by simp [inOver]) row List.mem_cons_self rfl
      have inBoth := same.mem_iff.mp (List.mem_append_right _ List.mem_cons_self)
      rcases List.mem_append.mp inBoth with inEarlier | later
      · exact List.mem_append_left _ inEarlier
      · rcases List.mem_cons.mp later with rfl | inOver
        · simp
        · exact absurd inOver elsewhere

/-- Rows behind the last anchor come back to their places where they stand behind it. -/
theorem weave_eq_iff_infix :
    weave isAnchor (earlier ++ [last]) rows = earlier ++ last :: strays ↔
        last :: strays <:+: rows := by
  have bothNodup := same.nodup_iff.mp nodup
  have notEarlier : last ∉ earlier := by
    intro inEarlier
    exact (List.nodup_append.mp bothNodup).2.2 last inEarlier last List.mem_cons_self rfl
  constructor
  · intro woven
    have anchorsNodup : (earlier ++ [last]).Nodup := by
      have part : [last].Sublist (last :: strays) := List.singleton_sublist.mpr List.mem_cons_self
      exact (part.append_left earlier).nodup bothNodup
    have isBehind : behind isAnchor last (weave isAnchor (earlier ++ [last]) rows) =
        behind isAnchor last rows := by
      apply behind_weave anchored anchorsNodup
      exact List.mem_append_right earlier (List.mem_singleton_self last)
    have noneAfter : front isAnchor ([] : List Row) = [] := rfl
    have isOver := front_append loose noneAfter
    rw [List.append_nil] at isOver
    rw [woven, behind_append notEarlier, isOver] at isBehind
    have inRows : last ∈ rows := same.mem_iff.mpr (by simp)
    obtain ⟨before, after, isRows, notBefore⟩ := List.eq_append_cons_of_mem inRows
    rw [isRows, behind_append notBefore] at isBehind
    obtain ⟨rest, isAfter⟩ : strays <+: after := isBehind ▸ List.takeWhile_prefix _
    exact ⟨before, rest, by rw [isRows, ← isAfter, List.append_assoc, List.cons_append]⟩
  · intro together
    have isBehind := behind_last_of_infix anchored loose same nodup together
    have counted := length_loose anchored loose same nodup
    rw [List.flatMap_append, List.flatMap_singleton, isBehind, List.length_append,
      List.length_append] at counted
    have noFront : front isAnchor rows = [] := List.eq_nil_of_length_eq_zero (by omega)
    have noneBehind : earlier.flatMap (fun anchor => behind isAnchor anchor rows) = [] :=
      List.eq_nil_of_length_eq_zero (by omega)
    have alone : earlier.flatMap (fun anchor => anchor :: behind isAnchor anchor rows) =
        earlier := by
      apply Eq.trans (List.flatMap_congr ?_) (List.flatMap_singleton' earlier)
      intro anchor member
      rw [List.flatMap_eq_nil_iff.mp noneBehind anchor member]
    rw [weave, noFront, List.flatMap_append, List.flatMap_singleton, isBehind, alone,
      List.nil_append]

end

end Anchors
