import Mathlib.Data.List.Infix

/-!
# Streams of lines

Lines that are written one after another, each ended by a separator, and a reader that has
taken a part of the next line.  What the reader has taken and what is still in flight begin
the lines that are left.
-/

namespace LineStreams

universe u

variable {Symbol : Type u} {separator : Symbol}

/-- The lines as they are written. -/
def wire (separator : Symbol) (lines : List (List Symbol)) : List Symbol :=
  lines.flatMap fun line => line ++ [separator]

@[simp]
theorem wire_nil : wire separator ([] : List (List Symbol)) = [] := rfl

theorem wire_cons (line : List Symbol) (rest : List (List Symbol)) :
    wire separator (line :: rest) = line ++ separator :: wire separator rest := by
  simp [wire]

theorem wire_append (first second : List (List Symbol)) :
    wire separator (first ++ second) = wire separator first ++ wire separator second :=
  List.flatMap_append

/-- The part of a line before its separator is determined by the stream. -/
theorem eq_of_append_separator {first second firstRest secondRest : List Symbol}
    (firstClean : separator ∉ first) (secondClean : separator ∉ second)
    (same : first ++ separator :: firstRest = second ++ separator :: secondRest) :
    first = second ∧ firstRest = secondRest := by
  induction first generalizing second with
  | nil =>
      cases second with
      | nil => exact ⟨rfl, by simpa using same⟩
      | cons symbol others =>
          obtain ⟨rfl, _⟩ := List.cons_eq_cons.mp same
          exact absurd List.mem_cons_self secondClean
  | cons symbol others inductionHypothesis =>
      cases second with
      | nil =>
          obtain ⟨rfl, _⟩ := List.cons_eq_cons.mp same
          exact absurd List.mem_cons_self firstClean
      | cons other rest =>
          obtain ⟨rfl, sameRest⟩ := List.cons_eq_cons.mp same
          obtain ⟨sameLine, sameTail⟩ := inductionHypothesis
            (fun member => firstClean (List.mem_cons_of_mem _ member))
            (fun member => secondClean (List.mem_cons_of_mem _ member)) sameRest
          exact ⟨by rw [sameLine], sameTail⟩

/-- A reader that meets a separator has read a whole line. -/
theorem line_of_separator {taken rest : List Symbol} {lines : List (List Symbol)}
    (clean : ∀ line ∈ lines, separator ∉ line) (takenClean : separator ∉ taken)
    (begins : taken ++ separator :: rest <+: wire separator lines) :
    ∃ more, lines = taken :: more ∧ rest <+: wire separator more := by
  obtain ⟨later, whole⟩ := begins
  cases lines with
  | nil => simp [wire] at whole
  | cons line more =>
      rw [wire_cons, List.append_assoc, List.cons_append] at whole
      obtain ⟨rfl, isRest⟩ :=
        eq_of_append_separator takenClean (clean line List.mem_cons_self) whole
      exact ⟨more, rfl, later, isRest⟩

/-- What is taken of a line and its separator, without the separator, begins the line. -/
theorem prefix_of_clean {taken line rest : List Symbol} (takenClean : separator ∉ taken)
    (begins : taken <+: line ++ separator :: rest) : taken <+: line := by
  rcases List.prefix_or_prefix_of_prefix begins (List.prefix_append line _) with inside | whole
  · exact inside
  · obtain ⟨others, rfl⟩ := whole
    cases others with
    | nil => rw [List.append_nil]
    | cons symbol others =>
        obtain ⟨rfl, _⟩ := List.cons_prefix_cons.mp ((List.prefix_append_right_inj line).mp begins)
        exact absurd (by simp) takenClean

/-- What a reader has taken of the next line begins it. -/
theorem prefix_of_taken {taken : List Symbol} {lines : List (List Symbol)}
    (takenClean : separator ∉ taken) (begins : taken <+: wire separator lines) :
    taken = [] ∨ ∃ line more, lines = line :: more ∧ taken <+: line := by
  cases lines with
  | nil => exact .inl (List.prefix_nil.mp begins)
  | cons line more =>
      rw [wire_cons] at begins
      exact .inr ⟨line, more, rfl, prefix_of_clean takenClean begins⟩

/-- Nothing is left of a stream that a part of one line makes up. -/
theorem eq_nil_of_taken {taken : List Symbol} {lines : List (List Symbol)}
    (takenClean : separator ∉ taken) (whole : taken = wire separator lines) : lines = [] := by
  cases lines with
  | nil => rfl
  | cons line more =>
      rw [whole, wire_cons] at takenClean
      exact absurd (by simp) takenClean

end LineStreams
