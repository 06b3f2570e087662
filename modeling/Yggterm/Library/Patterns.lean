import Mathlib.Data.List.Infix
import Yggterm.Library.Text

/-!
# Patterns and replacement

`LIKE` of SQL, in which a percent sign stands for any text, an underscore for any character,
and letters of ASCII for either case; and the replacement of every occurrence of a text by
another, from left to right.
-/

namespace Patterns

/-! ## `LIKE` -/

def like : List Char → List Char → Bool
  | [], text => text.isEmpty
  | char :: pattern, text =>
      if char = '%' then text.tails.any (like pattern)
      else
        match text with
        | [] => false
        | other :: rest => (char = '_' || char.toLower = other.toLower) && like pattern rest

theorem like_append {pattern others text : List Char} :
    like (pattern ++ others) text = true ↔
      ∃ front rest, text = front ++ rest ∧ like pattern front = true ∧ like others rest = true := by
  induction pattern generalizing text with
  | nil =>
      constructor
      · exact fun isLike => ⟨[], text, rfl, rfl, isLike⟩
      · rintro ⟨front, rest, rfl, isEmpty, isLike⟩
        rw [List.isEmpty_iff.mp isEmpty]
        exact isLike
  | cons char pattern inductionHypothesis =>
      rw [List.cons_append]
      by_cases isPercent : char = '%'
      · simp only [isPercent, like, if_true, List.any_eq_true, List.mem_tails, inductionHypothesis]
        constructor
        · rintro ⟨_, ⟨skipped, rfl⟩, front, rest, rfl, isLike, others⟩
          exact ⟨skipped ++ front, rest, by simp, ⟨front, List.suffix_append _ _, isLike⟩, others⟩
        · rintro ⟨_, rest, rfl, ⟨front, ⟨skipped, rfl⟩, isLike⟩, others⟩
          refine ⟨front ++ rest, ⟨skipped, by simp⟩, front, rest, rfl, isLike, others⟩
      · cases text with
        | nil =>
            rw [like, if_neg isPercent]
            constructor
            · nofun
            · rintro ⟨front, rest, isNil, isLike, _⟩
              obtain ⟨rfl, rfl⟩ := List.nil_eq_append_iff.mp isNil
              simp [like, isPercent] at isLike
        | cons other rest =>
            rw [like, if_neg isPercent]
            simp only [Bool.and_eq_true, inductionHypothesis]
            constructor
            · rintro ⟨same, front, later, rfl, isLike, others⟩
              refine ⟨other :: front, later, rfl, ?_, others⟩
              simpa [like, isPercent, isLike] using same
            · rintro ⟨front, later, isText, isLike, others⟩
              cases front with
              | nil => simp [like, isPercent] at isLike
              | cons first front =>
                  obtain ⟨rfl, rfl⟩ := List.cons_eq_cons.mp isText
                  simp only [like, isPercent, if_false, Bool.and_eq_true] at isLike
                  exact ⟨isLike.1, front, later, rfl, isLike.2, others⟩

theorem like_self (text : List Char) : like text text = true := by
  induction text with
  | nil => rfl
  | cons char text inductionHypothesis =>
      rw [like]
      split
      · rw [List.any_eq_true]
        exact ⟨text, (List.mem_tails _ _).mpr (List.suffix_cons char text), inductionHypothesis⟩
      · simp [inductionHypothesis]

theorem like_percent (text : List Char) : like ['%'] text = true := by
  simp only [like, if_true, List.any_eq_true]
  exact ⟨[], (List.mem_tails _ _).mpr text.nil_suffix, rfl⟩

theorem eq_slash_of_toLower {char : Char} (isSlash : '/' = char.toLower) : char = '/' := by
  delta Char.toLower at isSlash
  split at isSlash
  · next isUpper =>
      have value := congrArg (fun char => char.val.toNat) isSlash
      have lower := UInt32.le_iff_toNat_le.mp isUpper.1
      have upper := UInt32.le_iff_toNat_le.mp isUpper.2
      simp only [UInt32.toNat_add] at value
      simp at value lower upper
      omega
  · exact isSlash.symm

/-- What the pattern of a folder's contents matches: some text the folder matches, a slash,
and anything. -/
theorem like_contents_iff {folder text : List Char} :
    like (folder ++ ['/', '%']) text = true ↔
      ∃ front rest, text = front ++ '/' :: rest ∧ like folder front = true := by
  rw [like_append]
  constructor
  · rintro ⟨front, rest, rfl, isLike, contents⟩
    cases rest with
    | nil => cases contents
    | cons char rest =>
        have isSlash : '/' = char.toLower := by
          by_contra other
          have lowered : ('/').toLower = '/' := by decide
          simp [like, lowered, other] at contents
        rw [eq_slash_of_toLower isSlash]
        exact ⟨front, rest, rfl, isLike⟩
  · rintro ⟨front, rest, rfl, isLike⟩
    exact ⟨front, '/' :: rest, rfl, isLike, like_percent rest⟩

theorem like_contents_of_inside {folder text : List Char} (inside : folder ++ ['/'] <+: text) :
    like (folder ++ ['/', '%']) text = true := by
  obtain ⟨rest, rfl⟩ := inside
  exact like_contents_iff.mpr ⟨folder, rest, by simp, like_self folder⟩

theorem count_slash_le_of_like {pattern text : List Char} (isLike : like pattern text = true) :
    pattern.count '/' ≤ text.count '/' := by
  induction pattern generalizing text with
  | nil => exact Nat.zero_le _
  | cons char pattern inductionHypothesis =>
      by_cases isPercent : char = '%'
      · simp only [isPercent, like, if_true] at isLike
        obtain ⟨rest, isSuffix, restLike⟩ := List.any_eq_true.mp isLike
        have fewer := ((List.mem_tails _ _).mp isSuffix).sublist.count_le '/'
        rw [isPercent, List.count_cons_of_ne (by decide)]
        exact (inductionHypothesis restLike).trans fewer
      · cases text with
        | nil => simp [like, isPercent] at isLike
        | cons other rest =>
            rw [like, if_neg isPercent] at isLike
            obtain ⟨matched, restLike⟩ := Bool.and_eq_true_iff.mp isLike
            have fewer := inductionHypothesis restLike
            by_cases isSlash : char = '/'
            · subst isSlash
              have lowered : ('/').toLower = '/' := by decide
              obtain rfl : other = '/' := eq_slash_of_toLower (by simpa [lowered] using matched)
              simpa using fewer
            · rw [List.count_cons_of_ne isSlash]
              exact fewer.trans ((List.sublist_cons_self other rest).count_le '/')

/-- No folder is among its own contents. -/
theorem not_like_contents_self (folder : List Char) :
    like (folder ++ ['/', '%']) folder = false := by
  rw [← Bool.not_eq_true, like_contents_iff]
  rintro ⟨front, rest, isFolder, isLike⟩
  have fewer := count_slash_le_of_like isLike
  have slashes := congrArg (List.count '/') isFolder
  rw [List.count_append, List.count_cons_self] at slashes
  omega

/-! ## Replacement -/

section Replace

variable {Symbol : Type} [DecidableEq Symbol] (old new : List Symbol)

/-- The replacement behind an occurrence, the rest of which is skipped. -/
def replaceFrom : Nat → List Symbol → List Symbol
  | _, [] => []
  | skip + 1, _ :: rest => replaceFrom skip rest
  | 0, symbol :: rest =>
      if old <+: symbol :: rest then new ++ replaceFrom (old.length - 1) rest
      else symbol :: replaceFrom 0 rest

/-- Every occurrence is replaced; an empty text has none. -/
def replaceAll (text : List Symbol) : List Symbol :=
  if old = [] then text else replaceFrom old new 0 text

variable {old new}

theorem replaceFrom_nil (skip : Nat) : replaceFrom old new skip [] = [] := by
  cases skip <;> rfl

theorem replaceFrom_succ (skip : Nat) (symbol : Symbol) (rest : List Symbol) :
    replaceFrom old new (skip + 1) (symbol :: rest) = replaceFrom old new skip rest := rfl

theorem replaceFrom_zero (symbol : Symbol) (rest : List Symbol) :
    replaceFrom old new 0 (symbol :: rest) =
      if old <+: symbol :: rest then new ++ replaceFrom old new (old.length - 1) rest
      else symbol :: replaceFrom old new 0 rest := rfl

theorem replaceFrom_eq_drop (skip : Nat) (text : List Symbol) :
    replaceFrom old new skip text = replaceFrom old new 0 (text.drop skip) := by
  induction text generalizing skip with
  | nil => simp [replaceFrom_nil]
  | cons symbol rest inductionHypothesis =>
      cases skip with
      | zero => rfl
      | succ skip => exact inductionHypothesis skip

/-- An occurrence at the front is replaced, and the rest goes on by itself. -/
theorem replaceAll_append (nonempty : old ≠ []) (text : List Symbol) :
    replaceAll old new (old ++ text) = new ++ replaceAll old new text := by
  have front : old <+: old ++ text := List.prefix_append old text
  rw [replaceAll, replaceAll, if_neg nonempty, if_neg nonempty]
  cases isWhole : old ++ text with
  | nil => exact absurd (List.append_eq_nil_iff.mp isWhole).1 nonempty
  | cons symbol rest =>
      rw [isWhole] at front
      rw [replaceFrom_zero, if_pos front, replaceFrom_eq_drop]
      have isRest : rest.drop (old.length - 1) = text := by
        obtain ⟨first, later, rfl⟩ := List.exists_cons_of_ne_nil nonempty
        obtain ⟨_, rfl⟩ := List.cons_eq_cons.mp isWhole.symm
        simp
      rw [isRest]

theorem replaceAll_of_not_infix {text : List Symbol} (clean : ¬ old <:+: text) :
    replaceAll old new text = text := by
  rw [replaceAll]
  split
  · rfl
  · induction text with
    | nil => rfl
    | cons symbol rest inductionHypothesis =>
        rw [replaceFrom_zero, if_neg fun atFront => clean atFront.isInfix, inductionHypothesis]
        exact fun inside => clean (inside.trans (List.suffix_cons symbol rest).isInfix)

theorem length_replaceFrom_le (nonempty : old ≠ []) (shorter : new.length ≤ old.length)
    (skip : Nat) (text : List Symbol) :
    (replaceFrom old new skip text).length ≤ text.length - skip := by
  induction text generalizing skip with
  | nil => simp [replaceFrom_nil]
  | cons symbol rest inductionHypothesis =>
      cases skip with
      | succ skip => simpa [replaceFrom_succ] using inductionHypothesis skip
      | zero =>
          rw [replaceFrom_zero]
          split
          · next front =>
              have fits := front.length_le
              have later := inductionHypothesis (old.length - 1)
              have positive := List.length_pos_iff.mpr nonempty
              simp only [List.length_append, List.length_cons] at fits ⊢
              omega
          · have later := inductionHypothesis 0
            simp only [List.length_cons]
            omega

/-- A shorter text makes it shorter wherever there is something to replace. -/
theorem length_replaceAll_le (nonempty : old ≠ []) (shorter : new.length ≤ old.length)
    {text : List Symbol} (inside : old <:+: text) :
    (replaceAll old new text).length + (old.length - new.length) ≤ text.length := by
  rw [replaceAll, if_neg nonempty]
  induction text with
  | nil => exact absurd (List.infix_nil.mp inside) nonempty
  | cons symbol rest inductionHypothesis =>
      rw [replaceFrom_zero]
      split
      · next front =>
          have fits := front.length_le
          have later := length_replaceFrom_le nonempty shorter (old.length - 1) rest
          have positive := List.length_pos_iff.mpr nonempty
          simp only [List.length_append, List.length_cons] at fits ⊢
          omega
      · next notFront =>
          have later := inductionHypothesis ((List.infix_cons_iff.mp inside).resolve_left notFront)
          simp only [List.length_cons]
          omega

theorem le_length_replaceFrom (nonempty : old ≠ []) (longer : old.length ≤ new.length)
    (skip : Nat) (text : List Symbol) :
    text.length - skip ≤ (replaceFrom old new skip text).length := by
  induction text generalizing skip with
  | nil => simp [replaceFrom_nil]
  | cons symbol rest inductionHypothesis =>
      cases skip with
      | succ skip => simpa [replaceFrom_succ] using inductionHypothesis skip
      | zero =>
          rw [replaceFrom_zero]
          split
          · have later := inductionHypothesis (old.length - 1)
            have positive := List.length_pos_iff.mpr nonempty
            simp only [List.length_append, List.length_cons]
            omega
          · have later := inductionHypothesis 0
            simp only [List.length_cons]
            omega

/-- A replacement leaves only those texts alone in which there is nothing to replace. -/
theorem replaceAll_eq_self_iff (nonempty : old ≠ []) (different : old ≠ new) {text : List Symbol} :
    replaceAll old new text = text ↔ ¬ old <:+: text := by
  refine ⟨?_, replaceAll_of_not_infix⟩
  rw [replaceAll, if_neg nonempty]
  induction text with
  | nil => exact fun _ inside => nonempty (List.infix_nil.mp inside)
  | cons symbol rest inductionHypothesis =>
      rw [replaceFrom_zero]
      split
      · next front =>
          intro same
          have shapes := congrArg List.length same
          obtain ⟨later, isWhole⟩ := front
          have isRest : rest.drop (old.length - 1) = later := by
            obtain ⟨first, others, rfl⟩ := List.exists_cons_of_ne_nil nonempty
            obtain ⟨_, rfl⟩ := List.cons_eq_cons.mp isWhole
            simp
          have whole := congrArg List.length isWhole
          rw [replaceFrom_eq_drop, isRest] at same shapes
          simp only [List.length_append, List.length_cons] at shapes whole
          rcases lt_trichotomy new.length old.length with shorter | equal | longer
          · have bound := length_replaceFrom_le nonempty shorter.le 0 later
            omega
          · rw [← isWhole] at same
            exact absurd (List.append_inj_left same equal).symm different
          · have bound := le_length_replaceFrom nonempty longer.le 0 later
            omega
      · next notFront =>
          intro same inside
          rcases List.infix_cons_iff.mp inside with front | later
          · exact notFront front
          · exact inductionHypothesis (List.cons_eq_cons.mp same).2 later

end Replace

end Patterns
