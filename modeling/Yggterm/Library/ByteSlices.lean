import Yggterm.Library.Utf8

/-!
# Slicing at byte offsets

A text is sliced at an offset in bytes, which panics inside a character.  A loop over the bytes
that stops only at bytes of ASCII stops at characters.
-/

namespace Utf8

/-- `&text[..bytes]` and `&text[bytes..]`. -/
def splitBytes : Nat → List Char → Option (List Char × List Char)
  | 0, text => some ([], text)
  | _ + 1, [] => none
  | bytes + 1, char :: rest =>
      if (encodeChar char).length ≤ bytes + 1 then
        (splitBytes (bytes + 1 - (encodeChar char).length) rest).map fun parts =>
          (char :: parts.1, parts.2)
      else none

theorem length_encodeChar_pos (char : Char) : 0 < (encodeChar char).length := by
  unfold encodeChar
  split_ifs <;> simp

theorem length_encodeChar_of_ascii {char : Char} (isAscii : char.toNat < 0x80) :
    (encodeChar char).length = 1 := by
  rw [encodeChar, if_pos isAscii, List.length_singleton]

theorem one_lt_length_encodeChar {char : Char} (notAscii : ¬ char.toNat < 0x80) :
    1 < (encodeChar char).length := by
  rw [encodeChar, if_neg notAscii]
  split_ifs <;> simp

@[simp]
theorem encode_nil : encode [] = [] := rfl

@[simp]
theorem encode_cons (char : Char) (rest : List Char) :
    encode (char :: rest) = encodeChar char ++ encode rest := rfl

@[simp]
theorem encode_append (first rest : List Char) :
    encode (first ++ rest) = encode first ++ encode rest :=
  List.flatMap_append

theorem splitBytes_cons {char : Char} (rest : List Char) {bytes : Nat}
    (enough : (encodeChar char).length ≤ bytes) :
    splitBytes bytes (char :: rest) =
      (splitBytes (bytes - (encodeChar char).length) rest).map fun parts =>
        (char :: parts.1, parts.2) := by
  cases bytes with
  | zero => exact absurd (length_encodeChar_pos char) (by omega)
  | succ bytes => exact if_pos enough

/-- A slice at the end of a character gives what stands before it and behind it. -/
theorem splitBytes_append (first rest : List Char) :
    splitBytes (encode first).length (first ++ rest) = some (first, rest) := by
  induction first with
  | nil => exact splitBytes.eq_1 rest
  | cons char first inductionHypothesis =>
      rw [encode_cons, List.length_append, List.cons_append, splitBytes_cons _ (by omega),
        Nat.add_sub_cancel_left, inductionHypothesis]
      rfl

theorem splitBytes_encode (text : List Char) :
    splitBytes (encode text).length text = some (text, []) := by
  have whole := splitBytes_append text []
  rwa [List.append_nil] at whole

theorem eq_append_of_splitBytes {bytes : Nat} {text first rest : List Char}
    (split : splitBytes bytes text = some (first, rest)) :
    text = first ++ rest ∧ (encode first).length = bytes := by
  fun_induction splitBytes bytes text generalizing first rest with
  | case1 text =>
      cases split
      exact ⟨rfl, rfl⟩
  | case2 bytes => cases split
  | case3 bytes char later enough inductionHypothesis =>
      obtain ⟨⟨front, back⟩, found, same⟩ := Option.map_eq_some_iff.mp split
      cases same
      obtain ⟨rfl, length⟩ := inductionHypothesis found
      refine ⟨rfl, ?_⟩
      rw [encode_cons, List.length_append, length]
      omega
  | case4 bytes char later short => cases split

theorem length_lt_of_splitBytes {bytes : Nat} {text first rest : List Char}
    (split : splitBytes bytes text = some (first, rest)) (positive : 0 < bytes) :
    rest.length < text.length := by
  obtain ⟨rfl, length⟩ := eq_append_of_splitBytes split
  cases first with
  | nil =>
      rw [encode_nil, List.length_nil] at length
      omega
  | cons char first =>
      rw [List.cons_append, List.length_cons, List.length_append]
      omega

/-- A slice one byte into a longer character panics. -/
theorem splitBytes_one_eq_none {char : Char} (notAscii : ¬ char.toNat < 0x80) (rest : List Char) :
    splitBytes 1 (char :: rest) = none :=
  if_neg (Nat.not_le.mpr (one_lt_length_encodeChar notAscii))

/-- Whether a loop over bytes stops at a character. -/
def stopsAt (stops : UInt8 → Bool) (char : Char) : Bool :=
  char.toNat < 0x80 && stops (UInt8.ofNat char.toNat)

variable {stops : UInt8 → Bool}

/-- The bytes of a longer character are not ASCII. -/
theorem le_of_mem_encodeChar {char : Char} (notAscii : ¬ char.toNat < 0x80) {byte : UInt8}
    (member : byte ∈ encodeChar char) : 0x80 ≤ byte := by
  have valid : char.toNat < 0x110000 := by
    have := char.valid
    simp only [UInt32.isValidChar, Nat.isValidChar] at this
    simp only [Char.toNat]
    omega
  rw [UInt8.le_iff_toNat_le]
  have high : ∀ value, 0x80 ≤ value → value < 256 → 0x80 ≤ (UInt8.ofNat value).toNat := by
    intro value large small
    rwa [toNat_ofNat_of_lt small]
  rw [encodeChar, if_neg notAscii] at member
  split_ifs at member <;> simp only [List.mem_cons, List.not_mem_nil, or_false] at member
  · rcases member with rfl | rfl <;> exact high _ (by omega) (by omega)
  · rcases member with rfl | rfl | rfl <;> exact high _ (by omega) (by omega)
  · rcases member with rfl | rfl | rfl | rfl <;> exact high _ (by omega) (by omega)

theorem takeWhile_encodeChar (ascii : ∀ byte, 0x80 ≤ byte → stops byte = false) (char : Char)
    (bytes : List UInt8) :
    (encodeChar char ++ bytes).takeWhile (fun byte => !stops byte) =
      if stopsAt stops char then []
      else encodeChar char ++ bytes.takeWhile fun byte => !stops byte := by
  by_cases isAscii : char.toNat < 0x80
  · have isByte : encodeChar char = [UInt8.ofNat char.toNat] := if_pos isAscii
    have isStop : stopsAt stops char = stops (UInt8.ofNat char.toNat) := by
      simp [stopsAt, isAscii]
    rw [isByte, isStop, List.singleton_append, List.takeWhile_cons]
    cases stops (UInt8.ofNat char.toNat) <;> rfl
  · have isStop : stopsAt stops char = false := by simp [stopsAt, isAscii]
    rw [isStop]
    refine List.takeWhile_append_of_pos fun byte member => ?_
    rw [ascii byte (le_of_mem_encodeChar isAscii member), Bool.not_false]

/-- Such a loop ends where a loop over the characters does. -/
theorem takeWhile_encode (ascii : ∀ byte, 0x80 ≤ byte → stops byte = false) (text : List Char) :
    (encode text).takeWhile (fun byte => !stops byte) =
      encode (text.takeWhile fun char => !stopsAt stops char) := by
  induction text with
  | nil => rfl
  | cons char rest inductionHypothesis =>
      rw [encode_cons, takeWhile_encodeChar ascii, List.takeWhile_cons, inductionHypothesis]
      cases stopsAt stops char <;> rfl

end Utf8
