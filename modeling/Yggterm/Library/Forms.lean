import Yggterm.Library.Utf8

/-!
# Texts that end where they say

A form writes values so that its reader finds the end of what was written, whatever follows.
So no line of a form begins another, and a line that was cut short reads as nothing.
-/

namespace Forms

open Utf8

universe u

structure Form (Value : Type u) where
  write : Value → List Char
  read : List Char → Option (Value × List Char)
  read_write : ∀ value rest, read (write value ++ rest) = some (value, rest)

variable {Value : Type u} {form : Form Value}

def Form.line (form : Form Value) (value : Value) : List UInt8 := encode (form.write value)

/-- The reading of a line.  Only a line that is written so reads as a value. -/
def Form.readLine (form : Form Value) (line : List UInt8) : Option Value :=
  match form.read (fromUtf8Lossy line) with
  | some (value, _) => if form.line value = line then some value else none
  | none => none

theorem Form.readLine_line (form : Form Value) (value : Value) :
    form.readLine (form.line value) = some value := by
  have isRead := form.read_write value []
  rw [List.append_nil] at isRead
  simp only [Form.readLine, Form.line, fromUtf8Lossy_encode, isRead, if_true]

theorem line_of_readLine {line : List UInt8} {value : Value}
    (isRead : form.readLine line = some value) : line = form.line value := by
  unfold Form.readLine at isRead
  split at isRead
  · split at isRead
    · next isLine =>
        cases isRead
        exact isLine.symm
    · cases isRead
  · cases isRead

/-- No line begins another. -/
theorem eq_of_line_prefix {first second : Value} (begins : form.line first <+: form.line second) :
    first = second := by
  obtain ⟨rest, whole⟩ := begins
  have isText := congrArg fromUtf8Lossy whole
  rw [Form.line, Form.line, fromUtf8Lossy_encode_append, fromUtf8Lossy_encode] at isText
  have firstRead := form.read_write first (fromUtf8Lossy rest)
  have secondRead := form.read_write second []
  rw [isText] at firstRead
  rw [List.append_nil, firstRead] at secondRead
  exact congrArg Prod.fst (Option.some.inj secondRead)

theorem readLine_of_cut {part : List UInt8} {value : Value} (begins : part <+: form.line value)
    (cut : part ≠ form.line value) : form.readLine part = none := by
  cases isRead : form.readLine part with
  | none => rfl
  | some other =>
      obtain rfl := line_of_readLine isRead
      obtain rfl := eq_of_line_prefix begins
      exact absurd rfl cut

end Forms
