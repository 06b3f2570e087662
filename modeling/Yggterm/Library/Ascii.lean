import Mathlib.Data.Char

/-!
# ASCII letters and digits
-/

namespace Ascii

theorem eq_ofNat (char : Char) : Char.ofNat char.toNat = char := Char.ofNat_toNat char

/-- What can be checked of the 128 characters one by one. -/
theorem of_forall_ofNat (property : Char → Prop)
    (holds : ∀ code : Fin 128, property (Char.ofNat code)) {char : Char}
    (small : char.toNat < 128) : property char :=
  eq_ofNat char ▸ holds ⟨char.toNat, small⟩

theorem toNat_lt_of_isAlphanum {char : Char} (alphanum : char.isAlphanum = true) :
    char.toNat < 128 := by
  delta Char.isAlphanum Char.isAlpha Char.isUpper Char.isLower Char.isDigit at alphanum
  simp only [Bool.or_eq_true, Bool.and_eq_true, decide_eq_true_eq] at alphanum
  simp only [ge_iff_le, UInt32.le_iff_toNat_le, Char.toNat_val] at alphanum
  have bounds : 'Z'.toNat = 90 ∧ 'z'.toNat = 122 ∧ '9'.toNat = 57 := by decide
  rcases alphanum with (upper | lower) | digit
  · omega
  · omega
  · omega

theorem isAlphanum_toLower {char : Char} (alphanum : char.isAlphanum = true) :
    char.toLower.isAlphanum = true :=
  of_forall_ofNat (fun char => char.isAlphanum = true → char.toLower.isAlphanum = true)
    (by decide) (toNat_lt_of_isAlphanum alphanum) alphanum

theorem isUpper_toLower (char : Char) : char.toLower.isUpper = false := by
  delta Char.isUpper Char.toLower
  split <;> grind [UInt32.toNat_add, Char.toNat_val]

theorem toLower_of_isUpper_eq_false {char : Char} (notUpper : char.isUpper = false) :
    char.toLower = char := by
  have outside : ¬ (char.val ≥ 'A'.val ∧ char.val ≤ 'Z'.val) := by
    delta Char.isUpper at notUpper
    simpa using notUpper
  exact dif_neg outside

theorem toLower_toLower (char : Char) : char.toLower.toLower = char.toLower :=
  toLower_of_isUpper_eq_false (isUpper_toLower char)

theorem toUpper_of_isLower_eq_false {char : Char} (notLower : char.isLower = false) :
    char.toUpper = char := by
  have outside : ¬ (char.val ≥ 'a'.val ∧ char.val ≤ 'z'.val) := by
    delta Char.isLower at notLower
    simpa using notLower
  exact dif_neg outside

theorem toLower_toUpper (char : Char) : char.toUpper.toLower = char.toLower := by
  cases lower : char.isLower with
  | false => rw [toUpper_of_isLower_eq_false lower]
  | true =>
      have alphanum : char.isAlphanum = true := by
        delta Char.isAlphanum Char.isAlpha
        simp [lower]
      exact of_forall_ofNat (fun char => char.toUpper.toLower = char.toLower) (by decide)
        (toNat_lt_of_isAlphanum alphanum)

end Ascii
