import Mathlib.Data.List.DropRight

/-!
# Fields between separators

A field of a text stands between two separators, or between one and an end of the text.
-/

namespace Fields

variable {Symbol : Type} {separates : Symbol → Bool}

/-- Nothing of a field is open behind such a text. -/
def Opens (separates : Symbol → Bool) (front : List Symbol) : Prop :=
  ∀ symbol ∈ front.getLast?, separates symbol = true

/-- A field ends before such a text. -/
def Closes (separates : Symbol → Bool) (back : List Symbol) : Prop :=
  ∀ symbol ∈ back.head?, separates symbol = true

instance (separates : Symbol → Bool) (back : List Symbol) : Decidable (Closes separates back) :=
  inferInstanceAs (Decidable (∀ symbol ∈ back.head?, separates symbol = true))

def Clean (separates : Symbol → Bool) (field : List Symbol) : Prop :=
  ∀ symbol ∈ field, separates symbol = false

def IsField (separates : Symbol → Bool) (text field : List Symbol) : Prop :=
  ∃ front back, text = front ++ (field ++ back) ∧ Opens separates front ∧
    Closes separates back ∧ Clean separates field

theorem Clean.eq_nil_of_opens {front : List Symbol} (clean : Clean separates front)
    (opens : Opens separates front) : front = [] := by
  cases last : front.getLast? with
  | none => exact List.getLast?_eq_none_iff.mp last
  | some symbol =>
      have separator := opens symbol last
      rw [clean symbol (List.mem_of_getLast? last)] at separator
      cases separator

theorem Clean.eq_nil_of_closes {back : List Symbol} (clean : Clean separates back)
    (closes : Closes separates back) : back = [] := by
  cases back with
  | nil => rfl
  | cons symbol rest =>
      have separator := closes symbol rfl
      rw [clean symbol List.mem_cons_self] at separator
      cases separator

theorem Clean.append {first second : List Symbol} (clean : Clean separates first)
    (alsoClean : Clean separates second) : Clean separates (first ++ second) := by
  intro symbol member
  rcases List.mem_append.mp member with inFirst | inSecond
  · exact clean symbol inFirst
  · exact alsoClean symbol inSecond

theorem Clean.of_append {first second : List Symbol} (clean : Clean separates (first ++ second)) :
    Clean separates first ∧ Clean separates second :=
  ⟨fun symbol member => clean symbol (List.mem_append_left _ member),
    fun symbol member => clean symbol (List.mem_append_right _ member)⟩

theorem opens_nil : Opens separates ([] : List Symbol) := nofun

theorem Opens.append {first second : List Symbol} (opens : Opens separates first)
    (alsoOpens : Opens separates second) : Opens separates (first ++ second) := by
  intro symbol last
  rw [List.getLast?_append] at last
  cases ends : second.getLast? with
  | none =>
      rw [ends] at last
      exact opens symbol last
  | some other =>
      rw [ends] at last
      exact alsoOpens symbol (by rw [ends]; exact last)

/-- Only the last symbol counts. -/
theorem opens_append_iff {first second : List Symbol} (nonempty : second ≠ []) :
    Opens separates (first ++ second) ↔ Opens separates second := by
  have same : (first ++ second).getLast? = second.getLast? := by
    rw [List.getLast?_append, List.getLast?_eq_some_getLast nonempty]
    rfl
  rw [Opens, Opens, same]

theorem closes_append_iff {first second : List Symbol} (nonempty : first ≠ []) :
    Closes separates (first ++ second) ↔ Closes separates first := by
  obtain ⟨symbol, rest, rfl⟩ := List.exists_cons_of_ne_nil nonempty
  rfl

/-- The part before the first separator is determined by the text. -/
theorem Clean.eq_of_append {first second firstRest secondRest : List Symbol}
    (clean : Clean separates first) (alsoClean : Clean separates second)
    (closes : Closes separates firstRest) (alsoCloses : Closes separates secondRest)
    (same : first ++ firstRest = second ++ secondRest) : first = second := by
  rcases List.append_eq_append_iff.mp same with ⟨more, rfl, rest⟩ | ⟨more, rfl, rest⟩
  · cases more with
    | nil => exact (List.append_nil first).symm
    | cons symbol others =>
        rw [rest] at closes
        have isClean := (Clean.of_append alsoClean).2
        have separator := closes symbol rfl
        rw [isClean symbol List.mem_cons_self] at separator
        cases separator
  · cases more with
    | nil => exact List.append_nil second
    | cons symbol others =>
        rw [rest] at alsoCloses
        have isClean := (Clean.of_append clean).2
        have separator := alsoCloses symbol rfl
        rw [isClean symbol List.mem_cons_self] at separator
        cases separator

theorem isField_of_clean {text field : List Symbol} (clean : Clean separates text) :
    IsField separates text field ↔ field = text := by
  constructor
  · rintro ⟨front, back, rfl, opens, closes, _⟩
    have isFront := (Clean.of_append clean).1.eq_nil_of_opens opens
    have isBack := (Clean.of_append (Clean.of_append clean).2).2.eq_nil_of_closes closes
    rw [isFront, isBack, List.nil_append, List.append_nil]
  · rintro rfl
    exact ⟨[], [], by simp, opens_nil, nofun, clean⟩

theorem isField_append_cons {first rest field : List Symbol} {separator : Symbol}
    (clean : Clean separates first) (isSeparator : separates separator = true) :
    IsField separates (first ++ separator :: rest) field ↔
      field = first ∨ IsField separates rest field := by
  constructor
  · rintro ⟨front, back, isText, opens, closes, isClean⟩
    have closesHere : Closes separates (separator :: rest) := by
      rintro symbol ⟨rfl⟩
      exact isSeparator
    rcases List.append_eq_append_iff.mp isText with ⟨more, rfl, later⟩ | ⟨more, rfl, later⟩
    · cases more with
      | nil =>
          rw [List.append_nil] at opens
          rw [List.nil_append] at later
          have isFirst := clean.eq_nil_of_opens opens
          left
          rw [isFirst]
          have nothing : Clean separates ([] : List Symbol) := nofun
          exact isClean.eq_of_append nothing closes closesHere later.symm
      | cons symbol others =>
          obtain ⟨rfl, isRest⟩ := List.cons_eq_cons.mp later
          refine .inr ⟨others, back, isRest, ?_, closes, isClean⟩
          cases others with
          | nil => exact opens_nil
          | cons other others =>
              rw [opens_append_iff (List.cons_ne_nil _ _)] at opens
              exact opens
    · have isFront := (Clean.of_append clean).1.eq_nil_of_opens opens
      left
      rw [isFront, List.nil_append]
      exact isClean.eq_of_append (Clean.of_append clean).2 closes closesHere later
  · rintro (rfl | ⟨front, back, rfl, opens, closes, isClean⟩)
    · refine ⟨[], separator :: rest, rfl, opens_nil, ?_, clean⟩
      rintro symbol ⟨rfl⟩
      exact isSeparator
    · refine ⟨first ++ separator :: front, back, by simp, ?_, closes, isClean⟩
      rw [opens_append_iff (List.cons_ne_nil _ _), ← List.singleton_append]
      refine Opens.append ?_ opens
      rintro symbol ⟨rfl⟩
      exact isSeparator

theorem mem_splitOnP_iff {text field : List Symbol} :
    field ∈ text.splitOnP separates ↔ IsField separates text field := by
  induction size : text.length using Nat.strong_induction_on generalizing text with
  | _ bound inductionHypothesis =>
      have clean : Clean separates (text.takeWhile fun symbol => !separates symbol) := by
        intro symbol member
        simpa using List.mem_takeWhile_imp member
      have parts : text.takeWhile (fun symbol => !separates symbol) ++
          text.dropWhile (fun symbol => !separates symbol) = text := List.takeWhile_append_dropWhile
      cases rest : text.dropWhile fun symbol => !separates symbol with
      | nil =>
          rw [rest, List.append_nil] at parts
          rw [parts] at clean
          rw [List.splitOnP_eq_singleton clean, List.mem_singleton, isField_of_clean clean]
      | cons separator later =>
          have isSeparator : separates separator = true := by
            have nonempty : text.dropWhile (fun symbol => !separates symbol) ≠ [] := by simp [rest]
            have notKept := List.head_dropWhile_not (fun symbol => !separates symbol) nonempty
            simpa [rest] using notKept
          rw [rest] at parts
          have shorter : later.length < bound := by
            rw [← size, ← parts]
            simp only [List.length_append, List.length_cons]
            omega
          rw [← parts, List.splitOnP_append_cons_of_forall_mem clean separator isSeparator,
            List.mem_cons, inductionHypothesis later.length shorter rfl,
            isField_append_cons clean isSeparator]

/-! ## The first and the last field -/

def firstField (separates : Symbol → Bool) (text : List Symbol) : List Symbol :=
  text.takeWhile fun symbol => !separates symbol

def lastField (separates : Symbol → Bool) (text : List Symbol) : List Symbol :=
  text.rtakeWhile fun symbol => !separates symbol

variable (separates) in
theorem clean_lastField (text : List Symbol) : Clean separates (lastField separates text) := by
  intro symbol member
  simpa using List.mem_rtakeWhile_imp member

variable (separates) in
theorem exists_lastField (text : List Symbol) :
    ∃ front, text = front ++ lastField separates text ∧ Opens separates front := by
  refine ⟨text.rdropWhile fun symbol => !separates symbol,
    (List.rdropWhile_append_rtakeWhile).symm, ?_⟩
  intro symbol last
  have nonempty : text.rdropWhile (fun symbol => !separates symbol) ≠ [] := by
    intro isNil
    rw [isNil] at last
    cases last
  have notKept := List.rdropWhile_last_not (fun symbol => !separates symbol) text nonempty
  rw [List.getLast?_eq_some_getLast nonempty] at last
  cases last
  simpa using notKept

theorem lastField_append_of_clean {field : List Symbol} (clean : Clean separates field)
    (front : List Symbol) :
    lastField separates (front ++ field) = lastField separates front ++ field := by
  have reversed : ∀ symbol ∈ field.reverse, (!separates symbol) = true := by
    intro symbol member
    rw [clean symbol (List.mem_reverse.mp member)]
    rfl
  rw [lastField, List.rtakeWhile, List.reverse_append, List.takeWhile_append_of_pos reversed,
    List.reverse_append, List.reverse_reverse]
  rfl

theorem lastField_of_opens {front : List Symbol} (opens : Opens separates front) :
    lastField separates front = [] := by
  rw [lastField, List.rtakeWhile_eq_nil_iff]
  intro nonempty kept
  rw [opens _ (List.getLast?_eq_some_getLast nonempty)] at kept
  cases kept

theorem lastField_append {front field : List Symbol} (opens : Opens separates front)
    (clean : Clean separates field) : lastField separates (front ++ field) = field := by
  rw [lastField_append_of_clean clean, lastField_of_opens opens, List.nil_append]

theorem lastField_append_of_not_clean {rest : List Symbol} (separated : ¬ Clean separates rest)
    (front : List Symbol) : lastField separates (front ++ rest) = lastField separates rest := by
  obtain ⟨before, isRest, opens⟩ := exists_lastField separates rest
  have clean := clean_lastField separates rest
  have nonempty : before ≠ [] := by
    rintro rfl
    rw [isRest] at separated
    exact separated clean
  conv_lhs => rw [isRest, ← List.append_assoc]
  exact lastField_append ((opens_append_iff nonempty).mpr opens) clean

theorem firstField_append {field back : List Symbol} (clean : Clean separates field)
    (closes : Closes separates back) : firstField separates (field ++ back) = field := by
  have kept : ∀ symbol ∈ field, (!separates symbol) = true := by
    intro symbol member
    rw [clean symbol member]
    rfl
  rw [firstField, List.takeWhile_append_of_pos kept]
  cases back with
  | nil => exact List.append_nil field
  | cons symbol back =>
      rw [List.takeWhile_cons_of_neg (by simp [closes symbol rfl]), List.append_nil]

theorem isField_lastField (text : List Symbol) :
    IsField separates text (lastField separates text) := by
  obtain ⟨front, isText, opens⟩ := exists_lastField separates text
  refine ⟨front, [], ?_, opens, nofun, clean_lastField separates text⟩
  rw [List.append_nil]
  exact isText

theorem isField_firstField (text : List Symbol) :
    IsField separates text (firstField separates text) := by
  refine ⟨[], text.dropWhile fun symbol => !separates symbol, ?_, opens_nil, ?_, ?_⟩
  · exact (List.takeWhile_append_dropWhile).symm
  · intro symbol first
    cases rest : text.dropWhile fun symbol => !separates symbol with
    | nil =>
        rw [rest] at first
        cases first
    | cons separator later =>
        have nonempty : text.dropWhile (fun symbol => !separates symbol) ≠ [] := by simp [rest]
        have notKept := List.head_dropWhile_not (fun symbol => !separates symbol) nonempty
        rw [rest] at first
        cases first
        simpa [rest] using notKept
  · intro symbol member
    simpa using List.mem_takeWhile_imp member

end Fields
