import Mathlib.Data.List.Infix

/-!
# The first occurrence of a text

`findText` splits a text around the first occurrence of a needle.  What is found
does not depend on what follows, and a beginning in which no occurrence starts may
be dropped.
-/

namespace Search

universe u

variable {Symbol : Type u} [DecidableEq Symbol]

/-- What stands before the first occurrence of the needle, and what follows it. -/
def findText (needle : List Symbol) : List Symbol → Option (List Symbol × List Symbol)
  | [] => if needle = [] then some ([], []) else none
  | symbol :: rest =>
      if needle <+: symbol :: rest then some ([], (symbol :: rest).drop needle.length)
      else (findText needle rest).map fun found => (symbol :: found.1, found.2)

variable {needle : List Symbol}

theorem findText_eq {text before after : List Symbol}
    (found : findText needle text = some (before, after)) : text = before ++ (needle ++ after) := by
  induction text generalizing before with
  | nil =>
      rw [findText] at found
      split at found
      · next empty =>
          cases found
          simp [empty]
      · cases found
  | cons symbol rest inductionHypothesis =>
      rw [findText] at found
      split at found
      · next here =>
          obtain ⟨later, isLater⟩ := here
          cases found
          rw [← isLater]
          simp
      · obtain ⟨⟨laterBefore, laterAfter⟩, laterFound, isFound⟩ := Option.map_eq_some_iff.mp found
        cases isFound
        rw [inductionHypothesis laterFound]
        rfl

theorem length_lt_of_findText {text before after : List Symbol} (nonempty : needle ≠ [])
    (found : findText needle text = some (before, after)) : after.length < text.length := by
  have positive := List.length_pos_iff.mpr nonempty
  rw [findText_eq found]
  simp only [List.length_append]
  omega

/-- An occurrence at the front is the first. -/
theorem findText_append_self (nonempty : needle ≠ []) (after : List Symbol) :
    findText needle (needle ++ after) = some ([], after) := by
  cases needle with
  | nil => exact absurd rfl nonempty
  | cons symbol rest =>
      have here : symbol :: rest <+: symbol :: (rest ++ after) := List.prefix_append _ after
      rw [List.cons_append, findText, if_pos here]
      simp

/-- A beginning in which no occurrence starts may be dropped. -/
theorem findText_append_of_skip {skipped text : List Symbol}
    (nothing : ∀ first second, skipped = first ++ second → second ≠ [] →
      ¬ needle <+: second ++ text) :
    findText needle (skipped ++ text) =
      (findText needle text).map fun found => (skipped ++ found.1, found.2) := by
  induction skipped with
  | nil => simp
  | cons symbol rest inductionHypothesis =>
      have notHere : ¬ needle <+: symbol :: (rest ++ text) :=
        nothing [] (symbol :: rest) rfl (by simp)
      have later := inductionHypothesis fun first second isRest nonempty =>
        nothing (symbol :: first) second (by rw [isRest]; rfl) nonempty
      rw [List.cons_append, findText, if_neg notHere, later, Option.map_map]
      rfl

theorem not_isPrefix_of_findText_eq_none {text first second : List Symbol}
    (absent : findText needle text = none) (split : text = first ++ second) :
    ¬ needle <+: second := by
  induction first generalizing text with
  | nil =>
      obtain rfl : text = second := split
      cases text with
      | nil =>
          rintro ⟨after, isText⟩
          simp [findText, List.append_eq_nil_iff.mp isText] at absent
      | cons symbol rest =>
          intro here
          simp [findText, here] at absent
  | cons symbol rest inductionHypothesis =>
      subst split
      rw [List.cons_append, findText] at absent
      split at absent
      · cases absent
      · exact inductionHypothesis (Option.map_eq_none_iff.mp absent) rfl

/-- What is found stays found when the text goes on. -/
theorem findText_append {text before after : List Symbol}
    (found : findText needle text = some (before, after)) (more : List Symbol) :
    findText needle (text ++ more) = some (before, after ++ more) := by
  induction text generalizing before with
  | nil =>
      rw [findText] at found
      split at found
      · next empty =>
          cases found
          subst empty
          cases more with
          | nil => simp [findText]
          | cons symbol rest => simp [findText]
      · cases found
  | cons symbol rest inductionHypothesis =>
      have whole := findText_eq found
      rw [findText] at found
      rw [List.cons_append, findText]
      split at found
      · next here =>
          have stillHere : needle <+: symbol :: (rest ++ more) := here.trans ⟨more, rfl⟩
          rw [if_pos stillHere]
          cases found
          rw [← List.cons_append, List.drop_append_of_le_length here.length_le]
      · next notHere =>
          -- the needle fits in the text, so what follows cannot bring it to the front
          have fits : needle.length ≤ (symbol :: rest).length := by
            rw [whole]
            simp only [List.length_append]
            omega
          have stillNot : ¬ needle <+: symbol :: (rest ++ more) := fun here =>
            notHere (List.prefix_of_prefix_length_le here ⟨more, rfl⟩ fits)
          obtain ⟨⟨laterBefore, laterAfter⟩, laterFound, isFound⟩ :=
            Option.map_eq_some_iff.mp found
          cases isFound
          rw [if_neg stillNot, inductionHypothesis laterFound]
          rfl

omit [DecidableEq Symbol] in
/-- A needle that begins a text ends before a symbol that it lacks. -/
theorem isPrefix_of_isPrefix_append_cons {symbol : Symbol} {front rest : List Symbol}
    (foreign : symbol ∉ needle) (here : needle <+: front ++ symbol :: rest) : needle <+: front := by
  apply List.prefix_of_prefix_length_le here (List.prefix_append _ _)
  apply Nat.le_of_not_lt
  intro long
  obtain ⟨tail, isNeedle⟩ : front ++ [symbol] <+: needle := by
    apply List.prefix_of_prefix_length_le _ here (by simpa using Nat.succ_le_of_lt long)
    exact ⟨rest, by rw [List.append_assoc, List.singleton_append]⟩
  apply foreign
  rw [← isNeedle]
  exact List.mem_append_left _ (List.mem_append_right _ List.mem_cons_self)

/-- A symbol that the needle lacks parts the search. -/
theorem findText_append_cons {symbol : Symbol} {front : List Symbol} (foreign : symbol ∉ needle)
    (absent : findText needle front = none) (rest : List Symbol) :
    findText needle (front ++ symbol :: rest) =
      (findText needle rest).map fun found => (front ++ symbol :: found.1, found.2) := by
  have parted : front ++ symbol :: rest = (front ++ [symbol]) ++ rest := by simp
  rw [parted, findText_append_of_skip]
  · simp
  · intro first second isFront nonempty here
    obtain ⟨before, last, rfl⟩ := (List.eq_nil_or_concat' second).resolve_left nonempty
    rw [← List.append_assoc] at isFront
    obtain ⟨isBefore, isLast⟩ := List.append_inj' isFront rfl
    rw [← isLast, List.append_assoc] at here
    exact not_isPrefix_of_findText_eq_none absent isBefore
      (isPrefix_of_isPrefix_append_cons foreign here)

/-- The needle begins nowhere in such a text, whatever follows. -/
def Clear (needle skipped : List Symbol) : Prop :=
  ∀ length < skipped.length,
    ¬ needle.take (skipped.length - length) <+: skipped.drop length

instance (needle skipped : List Symbol) : Decidable (Clear needle skipped) :=
  inferInstanceAs (Decidable (∀ length < skipped.length,
    ¬ needle.take (skipped.length - length) <+: skipped.drop length))

omit [DecidableEq Symbol] in
theorem clear_of_not_mem {symbol : Symbol} {tail skipped : List Symbol}
    (foreign : symbol ∉ skipped) : Clear (symbol :: tail) skipped := by
  intro length inside here
  apply foreign
  apply List.mem_of_mem_drop (i := length)
  apply here.subset
  obtain ⟨left, isLeft⟩ := Nat.exists_eq_add_of_lt inside
  rw [show skipped.length - length = left + 1 by omega, List.take_succ_cons]
  exact List.mem_cons_self

theorem findText_append_of_clear {skipped : List Symbol} (clear : Clear needle skipped)
    (text : List Symbol) :
    findText needle (skipped ++ text) =
      (findText needle text).map fun found => (skipped ++ found.1, found.2) := by
  apply findText_append_of_skip
  rintro first second rfl nonempty here
  apply clear first.length
  · rw [List.length_append]
    exact Nat.lt_add_of_pos_right (List.length_pos_of_ne_nil nonempty)
  · rw [List.drop_left, List.length_append, Nat.add_sub_cancel_left]
    simpa using here.take second.length

theorem findText_eq_none_iff {text : List Symbol} :
    findText needle text = none ↔ ¬ needle <:+: text := by
  constructor
  · rintro absent ⟨before, after, isText⟩
    rw [List.append_assoc] at isText
    exact not_isPrefix_of_findText_eq_none absent isText.symm (List.prefix_append _ _)
  · intro absent
    cases found : findText needle text with
    | none => rfl
    | some parts =>
        apply absurd _ absent
        exact ⟨parts.1, parts.2, by rw [List.append_assoc]; exact (findText_eq found).symm⟩

/-- A single symbol is found where it first stands. -/
theorem findText_singleton {symbol : Symbol} {before : List Symbol} (clean : symbol ∉ before)
    (after : List Symbol) :
    findText [symbol] (before ++ symbol :: after) = some (before, after) := by
  induction before with
  | nil => simp [findText]
  | cons first rest inductionHypothesis =>
      obtain ⟨different, restClean⟩ := not_or.mp (mt List.mem_cons.mpr clean)
      have notHere : ¬ [symbol] <+: first :: (rest ++ symbol :: after) := by simp [different]
      rw [List.cons_append, findText, if_neg notHere, inductionHypothesis restClean]
      rfl

/-- Before the first occurrence of a single symbol that symbol does not stand. -/
theorem not_mem_of_findText_singleton {symbol : Symbol} {text before after : List Symbol}
    (found : findText [symbol] text = some (before, after)) : symbol ∉ before := by
  induction text generalizing before with
  | nil => simp [findText] at found
  | cons first rest inductionHypothesis =>
      rw [findText] at found
      split at found
      · cases found
        exact List.not_mem_nil
      · next notHere =>
          obtain ⟨⟨laterBefore, laterAfter⟩, laterFound, isFound⟩ :=
            Option.map_eq_some_iff.mp found
          cases isFound
          have different : symbol ≠ first := fun same => notHere (by simp [same])
          exact List.not_mem_cons_of_ne_of_not_mem different (inductionHypothesis laterFound)

/-! ## Needles that do not overlap themselves -/

/-- No end of the needle, the whole apart, begins it. -/
def Borderless (needle : List Symbol) : Prop :=
  ∀ length < needle.length, 0 < length → ¬ needle.drop length <+: needle

instance (needle : List Symbol) : Decidable (Borderless needle) :=
  inferInstanceAs (Decidable (∀ length < needle.length, 0 < length →
    ¬ needle.drop length <+: needle))

theorem length_le_of_findText {text before after first rest : List Symbol}
    (found : findText needle text = some (first, rest))
    (isText : text = before ++ (needle ++ after)) : first.length ≤ before.length := by
  induction before generalizing text first with
  | nil =>
      cases text with
      | nil =>
          rw [findText] at found
          split at found
          · cases found
            rfl
          · cases found
      | cons symbol others =>
          have here : needle <+: symbol :: others := ⟨after, isText.symm⟩
          rw [findText, if_pos here] at found
          cases found
          rfl
  | cons symbol before inductionHypothesis =>
      subst isText
      rw [List.cons_append, findText] at found
      split at found
      · cases found
        exact Nat.zero_le _
      · obtain ⟨⟨laterFirst, _⟩, laterFound, same⟩ := Option.map_eq_some_iff.mp found
        cases same
        exact Nat.succ_le_succ (inductionHypothesis laterFound rfl)

/-- An occurrence is the first one or stands behind it. -/
theorem occurrence_of_findText {text before after first rest : List Symbol}
    (borderless : Borderless needle) (found : findText needle text = some (first, rest))
    (isText : text = before ++ (needle ++ after)) :
    rest = after ∨ ∃ between, rest = between ++ (needle ++ after) := by
  have notLater := length_le_of_findText found isText
  have same : first ++ (needle ++ rest) = before ++ (needle ++ after) := by
    rw [← isText]
    exact (findText_eq found).symm
  obtain ⟨gap, rfl⟩ : first <+: before :=
    List.prefix_of_prefix_length_le ⟨_, same⟩ (List.prefix_append _ _) notLater
  rw [List.append_assoc, List.append_cancel_left_eq] at same
  rcases Nat.lt_or_ge gap.length needle.length with short | long
  · obtain ⟨border, isNeedle⟩ : gap <+: needle :=
      List.prefix_of_prefix_length_le ⟨_, same.symm⟩ (List.prefix_append _ _) (Nat.le_of_lt short)
    cases gap with
    | nil =>
        rw [List.nil_append, List.append_cancel_left_eq] at same
        exact .inl same
    | cons symbol others =>
        -- the end of the needle behind the gap would begin the needle
        have isBorder : needle.drop (symbol :: others).length = border := by
          rw [← isNeedle, List.drop_left]
        rw [← isNeedle, List.append_assoc, List.append_cancel_left_eq, isNeedle] at same
        apply absurd _ (borderless _ short (by simp))
        rw [isBorder]
        apply List.prefix_of_prefix_length_le ⟨_, same⟩ (List.prefix_append _ _)
        rw [← isBorder, List.length_drop]
        exact Nat.sub_le _ _
  · obtain ⟨between, rfl⟩ : needle <+: gap :=
      List.prefix_of_prefix_length_le ⟨_, same⟩ (List.prefix_append _ _) long
    rw [List.append_assoc, List.append_cancel_left_eq] at same
    exact .inr ⟨between, same⟩

end Search
