import Mathlib.Data.List.Infix
import Yggterm.Library.Runs

/-!
# Texts that open and close a mode

A listener hears one symbol after another.  One mark in the text puts it into a mode,
another takes it out.  Both marks begin with a symbol that stands nowhere else in them,
so that no mark begins inside another.
-/

namespace Modes

open Runs

universe u

variable {Symbol : Type u}

structure Marks (Symbol : Type u) where
  lead : Symbol
  opening : List Symbol
  closing : List Symbol
  lead_not_mem_opening : lead ∉ opening
  lead_not_mem_closing : lead ∉ closing
  opening_not_prefix : ¬ opening <+: closing
  closing_not_prefix : ¬ closing <+: opening

namespace Marks

variable (marks : Marks Symbol)

def opens : List Symbol := marks.lead :: marks.opening

def closes : List Symbol := marks.lead :: marks.closing

/-- One of the two marks. -/
def IsMark (mark : List Symbol) : Prop := mark = marks.opens ∨ mark = marks.closes

theorem isMark_opens : marks.IsMark marks.opens := Or.inl rfl

theorem isMark_closes : marks.IsMark marks.closes := Or.inr rfl

theorem opens_ne_closes : marks.opens ≠ marks.closes := by
  intro same
  exact marks.opening_not_prefix ((List.cons.inj same).2 ▸ List.prefix_rfl)

variable {marks} {mark other text rest : List Symbol}

theorem IsMark.exists_tail (isMark : marks.IsMark mark) :
    ∃ tail, mark = marks.lead :: tail ∧ marks.lead ∉ tail := by
  rcases isMark with rfl | rfl
  · exact ⟨marks.opening, rfl, marks.lead_not_mem_opening⟩
  · exact ⟨marks.closing, rfl, marks.lead_not_mem_closing⟩

theorem IsMark.eq_of_prefix (isMark : marks.IsMark mark) (isOther : marks.IsMark other)
    (within : other <+: mark) : other = mark := by
  rcases isMark with rfl | rfl <;> rcases isOther with rfl | rfl
  · rfl
  · exact absurd (List.cons_prefix_cons.mp within).2 marks.closing_not_prefix
  · exact absurd (List.cons_prefix_cons.mp within).2 marks.opening_not_prefix
  · rfl

/-- Behind a mark the next one begins anew. -/
theorem IsMark.suffix_of_suffix (isMark : marks.IsMark mark) (isOther : marks.IsMark other)
    (ends : mark <:+ text ++ other ++ rest) : mark <:+ rest ∨ (rest = [] ∧ mark = other) := by
  obtain ⟨tail, isTail, notInTail⟩ := isMark.exists_tail
  obtain ⟨otherTail, isOtherTail, notInOtherTail⟩ := isOther.exists_tail
  rcases List.suffix_or_suffix_of_suffix ends (List.suffix_append _ rest) with short | long
  · exact Or.inl short
  · obtain ⟨part, whole⟩ := long
    rw [← whole, List.suffix_append_self_iff] at ends
    cases part with
    | nil => exact Or.inl ⟨[], whole.symm⟩
    | cons first later =>
        obtain ⟨rfl, rfl⟩ : first = marks.lead ∧ later ++ rest = tail :=
          List.cons.inj (whole.trans isTail)
        have same : marks.lead :: later = other := by
          rcases List.suffix_or_suffix_of_suffix ends (List.suffix_append text other) with
            within | around
          · rw [isOtherTail] at within
            rcases List.suffix_cons_iff.mp within with same | inTail
            · exact same.trans isOtherTail.symm
            · exact absurd (inTail.subset List.mem_cons_self) notInOtherTail
          · rcases List.suffix_cons_iff.mp around with same | inLater
            · exact same.symm
            · rw [isOtherTail] at inLater
              have inPart := inLater.subset List.mem_cons_self
              exact absurd (List.mem_append_left rest inPart) notInTail
        rw [← whole, same] at isMark ⊢
        have whole' := isMark.eq_of_prefix isOther (List.prefix_append other rest)
        have nothing : rest = [] := List.append_right_eq_self.mp whole'.symm
        exact Or.inr ⟨nothing, whole'.symm⟩

end Marks

/-! ## Texts that leave the mode closed -/

variable {marks : Marks Symbol}

/-- No mark is half heard. -/
def NoMarkBegun (marks : Marks Symbol) (heard : List Symbol) : Prop :=
  ∀ mark, marks.IsMark mark → ∀ text, text ≠ [] → mark <:+ heard ++ text → mark <:+ text

theorem noMarkBegun_nil : NoMarkBegun marks [] := fun _ _ _ _ ends => ends

theorem noMarkBegun_append {mark : List Symbol} (isMark : marks.IsMark mark) (text : List Symbol) :
    NoMarkBegun marks (text ++ mark) := by
  intro other isOther rest nonempty ends
  rcases isOther.suffix_of_suffix isMark ends with short | ⟨nothing, _⟩
  · exact short
  · exact absurd nothing nonempty

/-- The text closes the mode and does not open it again. -/
def LeftClosed (marks : Marks Symbol) (text : List Symbol) : Prop :=
  ∃ before between, text = before ++ marks.closes ++ between ∧ ¬ marks.opens <:+: between

theorem not_leftClosed_nil : ¬ LeftClosed marks [] := by
  rintro ⟨before, between, whole, _⟩
  simp [Marks.closes] at whole

theorem not_leftClosed_of_opens {text : List Symbol} (ends : marks.opens <:+ text) :
    ¬ LeftClosed marks text := by
  rintro ⟨before, between, rfl, notAgain⟩
  rcases marks.isMark_opens.suffix_of_suffix marks.isMark_closes ends with short | ⟨_, same⟩
  · exact notAgain short.isInfix
  · exact marks.opens_ne_closes same

theorem leftClosed_of_closes {text : List Symbol} (ends : marks.closes <:+ text) :
    LeftClosed marks text := by
  obtain ⟨before, whole⟩ := ends
  refine ⟨before, [], by rw [List.append_nil, whole], ?_⟩
  intro again
  exact List.cons_ne_nil _ _ (List.infix_nil.mp again)

theorem leftClosed_append_singleton_iff {text : List Symbol} {symbol : Symbol}
    (notOpens : ¬ marks.opens <:+ text ++ [symbol])
    (notCloses : ¬ marks.closes <:+ text ++ [symbol]) :
    LeftClosed marks (text ++ [symbol]) ↔ LeftClosed marks text := by
  constructor
  · rintro ⟨before, between, whole, notAgain⟩
    rcases List.eq_nil_or_concat' between with rfl | ⟨start, last, rfl⟩
    · rw [List.append_nil] at whole
      exact absurd (whole ▸ List.suffix_append _ _) notCloses
    · rw [← List.append_assoc] at whole
      refine ⟨before, start, (List.append_singleton_inj.mp whole).1, ?_⟩
      intro again
      exact notAgain (again.trans (List.prefix_append _ _).isInfix)
  · rintro ⟨before, between, rfl, notAgain⟩
    refine ⟨before, between ++ [symbol], by rw [List.append_assoc _ between], ?_⟩
    intro again
    rcases List.infix_concat_iff.mp again with ends | earlier
    · rw [List.append_assoc _ between] at notOpens
      exact notOpens (ends.trans (List.suffix_append _ _))
    · exact notAgain earlier

/-! ## The listener -/

structure Listener (Symbol : Type u) where
  heard : List Symbol
  inside : Bool

variable [DecidableEq Symbol]

/-- A mark counts when its last symbol is heard. -/
def hear (marks : Marks Symbol) (listener : Listener Symbol) (symbol : Symbol) : Listener Symbol :=
  let heard := listener.heard ++ [symbol]
  { heard
    inside :=
      if marks.opens <:+ heard then true
      else if marks.closes <:+ heard then false
      else listener.inside }

variable {listener : Listener Symbol}

theorem heard_run (text : List Symbol) :
    (run (hear marks) listener text).heard = listener.heard ++ text := by
  induction text generalizing listener with
  | nil => exact (List.append_nil _).symm
  | cons symbol rest inductionHypothesis =>
      rw [run_cons, inductionHypothesis, hear, List.append_assoc]
      rfl

theorem inside_run_append_singleton (text : List Symbol) (symbol : Symbol) :
    (run (hear marks) listener (text ++ [symbol])).inside =
      if marks.opens <:+ listener.heard ++ (text ++ [symbol]) then true
      else if marks.closes <:+ listener.heard ++ (text ++ [symbol]) then false
      else (run (hear marks) listener text).inside := by
  rw [run_append, run_cons, run_nil, hear, heard_run, List.append_assoc]

theorem inside_of_opens {text : List Symbol} (nonempty : text ≠ [])
    (ends : marks.opens <:+ listener.heard ++ text) :
    (run (hear marks) listener text).inside = true := by
  obtain ⟨start, symbol, rfl⟩ := (List.eq_nil_or_concat' text).resolve_left nonempty
  rw [inside_run_append_singleton, if_pos ends]

theorem inside_of_closes {text : List Symbol} (nonempty : text ≠ [])
    (ends : marks.closes <:+ listener.heard ++ text)
    (other : ¬ marks.opens <:+ listener.heard ++ text) :
    (run (hear marks) listener text).inside = false := by
  obtain ⟨start, symbol, rfl⟩ := (List.eq_nil_or_concat' text).resolve_left nonempty
  rw [inside_run_append_singleton, if_neg other, if_pos ends]

theorem inside_run_opens : (run (hear marks) listener marks.opens).inside = true :=
  inside_of_opens (List.cons_ne_nil _ _) (List.suffix_append _ _)

theorem inside_run_closes : (run (hear marks) listener marks.closes).inside = false := by
  apply inside_of_closes (List.cons_ne_nil _ _) (List.suffix_append _ _)
  intro heard
  have ends : marks.opens <:+ listener.heard ++ marks.closes ++ [] := by
    rw [List.append_nil]
    exact heard
  rcases marks.isMark_opens.suffix_of_suffix marks.isMark_closes ends with short | ⟨_, same⟩
  · exact List.cons_ne_nil _ _ (List.suffix_nil.mp short)
  · exact marks.opens_ne_closes same

/-- Inside at first, a listener is outside exactly where the text has left the mode closed. -/
theorem inside_run_eq_false_iff (noneBegun : NoMarkBegun marks listener.heard)
    (isInside : listener.inside = true) (text : List Symbol) :
    (run (hear marks) listener text).inside = false ↔ LeftClosed marks text := by
  induction text using List.reverseRecOn with
  | nil => simp [isInside, not_leftClosed_nil]
  | append_singleton text symbol inductionHypothesis =>
      have nonempty : text ++ [symbol] ≠ [] := by simp
      by_cases opened : marks.opens <:+ text ++ [symbol]
      · have heard := opened.trans (List.suffix_append listener.heard _)
        rw [inside_of_opens nonempty heard]
        simp [not_leftClosed_of_opens opened]
      · have notHeard := mt (noneBegun _ marks.isMark_opens _ nonempty) opened
        by_cases closed : marks.closes <:+ text ++ [symbol]
        · have heard := closed.trans (List.suffix_append listener.heard _)
          rw [inside_of_closes nonempty heard notHeard]
          exact iff_of_true rfl (leftClosed_of_closes closed)
        · have stillNot := mt (noneBegun _ marks.isMark_closes _ nonempty) closed
          rw [inside_run_append_singleton, if_neg notHeard, if_neg stillNot, inductionHypothesis,
            leftClosed_append_singleton_iff opened closed]

end Modes
