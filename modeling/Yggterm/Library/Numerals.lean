import Mathlib.Algebra.Ring.Nat
import Mathlib.Data.List.Induction

/-!
# Bijective numerals

A digit counts from one, and there is no zero: every number is written in exactly one way.
-/

namespace Numerals

variable {base : Nat}

/-- The number that digits stand for; the digit `0` counts one. -/
def value (base : Nat) (digits : List Nat) : Nat :=
  digits.foldl (fun number digit => number * base + (digit + 1)) 0

def write (base number : Nat) : List Nat :=
  if number = 0 then [] else write base ((number - 1) / base) ++ [(number - 1) % base]
termination_by number
decreasing_by
  have smaller := Nat.div_le_self (number - 1) base
  omega

theorem value_append_singleton (digits : List Nat) (digit : Nat) :
    value base (digits ++ [digit]) = value base digits * base + (digit + 1) := by
  rw [value, List.foldl_append]
  rfl

@[simp]
theorem write_zero : write base 0 = [] := by
  rw [write, if_pos rfl]

theorem write_append {number digit : Nat} (small : digit < base) :
    write base (number * base + (digit + 1)) = write base number ++ [digit] := by
  have positive : 0 < base := Nat.zero_lt_of_lt small
  have isQuotient : (number * base + digit) / base = number := by
    rw [Nat.mul_comm, Nat.mul_add_div positive, Nat.div_eq_of_lt small, Nat.add_zero]
  have isRemainder : (number * base + digit) % base = digit := by
    rw [Nat.mul_comm, Nat.mul_add_mod, Nat.mod_eq_of_lt small]
  rw [← Nat.add_assoc, write, if_neg (Nat.succ_ne_zero _), Nat.add_sub_cancel, isQuotient,
    isRemainder]

theorem lt_of_mem_write (positive : 0 < base) {number digit : Nat}
    (member : digit ∈ write base number) : digit < base := by
  induction number using Nat.strongRecOn with
  | ind number inductionHypothesis =>
      rw [write] at member
      split at member
      · cases member
      · next nonzero =>
          rcases List.mem_append.mp member with front | last
          · have smaller := Nat.div_le_self (number - 1) base
            exact inductionHypothesis ((number - 1) / base) (by omega) front
          · rw [List.mem_singleton.mp last]
            exact Nat.mod_lt _ positive

theorem value_write (base number : Nat) : value base (write base number) = number := by
  induction number using Nat.strongRecOn with
  | ind number inductionHypothesis =>
      rw [write]
      split
      · next isZero =>
          rw [isZero]
          rfl
      · next nonzero =>
          have smaller := Nat.div_le_self (number - 1) base
          have whole := Nat.div_add_mod' (number - 1) base
          rw [value_append_singleton, inductionHypothesis ((number - 1) / base) (by omega)]
          omega

theorem write_value {digits : List Nat} (small : ∀ digit ∈ digits, digit < base) :
    write base (value base digits) = digits := by
  induction digits using List.reverseRecOn with
  | nil => exact write_zero
  | append_singleton digits digit inductionHypothesis =>
      rw [value_append_singleton, write_append (small digit (by simp)),
        inductionHypothesis fun other member => small other (List.mem_append_left _ member)]

theorem write_injective (base : Nat) : Function.Injective (write base) :=
  Function.LeftInverse.injective (value_write base)

end Numerals
