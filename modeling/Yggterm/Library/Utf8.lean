import Yggterm.Library.Tokens

/-!
# UTF-8 as the standard library decodes it

`std::str::from_utf8` reports how far its input is valid and how long the first
ill-formed sequence is; `String::from_utf8_lossy` replaces each maximal ill-formed
sequence by one replacement character.  Both read one sequence after another, and both
give back the text that the bytes encode.
-/

namespace Utf8

/-- What stands at the front of a byte string: a scalar, or an ill-formed sequence
of the given length. -/
inductive Item where
  | scalar (char : Char)
  | invalid (length : Nat)
  deriving DecidableEq

def replacement : Char := Char.ofNat 0xfffd

def Item.text : Item → List Char
  | .scalar char => [char]
  | .invalid _ => [replacement]

def isContinuation (byte : UInt8) : Bool := 0x80 ≤ byte && byte ≤ 0xbf

/-- The length a first byte announces; zero for a byte no sequence starts with. -/
def charWidth (first : UInt8) : Nat :=
  if first ≤ 0x7f then 1
  else if 0xc2 ≤ first && first ≤ 0xdf then 2
  else if 0xe0 ≤ first && first ≤ 0xef then 3
  else if 0xf0 ≤ first && first ≤ 0xf4 then 4
  else 0

/-- The second bytes that exclude overlong forms, surrogates and what is beyond
the last code point. -/
def secondFits (first second : UInt8) : Bool :=
  if first = 0xe0 then 0xa0 ≤ second && second ≤ 0xbf
  else if first = 0xed then 0x80 ≤ second && second ≤ 0x9f
  else if first = 0xf0 then 0x90 ≤ second && second ≤ 0xbf
  else if first = 0xf4 then 0x80 ≤ second && second ≤ 0x8f
  else isContinuation second

def continuationBits (byte : UInt8) : Nat := byte.toNat - 0x80

/-- One more byte of a sequence of which `seen` bytes are read: wait for it, go on
with it, or end the ill-formed sequence before it. -/
def require (fits : UInt8 → Bool) (seen : Nat) (bytes : List UInt8)
    (go : UInt8 → List UInt8 → Option (Item × List UInt8)) : Option (Item × List UInt8) :=
  match bytes with
  | [] => none
  | byte :: rest => if fits byte then go byte rest else some (.invalid seen, byte :: rest)

def scalar (code : Nat) (rest : List UInt8) : Option (Item × List UInt8) :=
  some (.scalar (Char.ofNat code), rest)

/-- The first item, and the bytes behind it.  No answer for an empty input and for
one that ends before its first sequence is decided. -/
def next : List UInt8 → Option (Item × List UInt8)
  | [] => none
  | first :: rest =>
      match charWidth first with
      | 1 => scalar first.toNat rest
      | 2 =>
          require isContinuation 1 rest fun second rest =>
            scalar ((first.toNat - 0xc0) * 64 + continuationBits second) rest
      | 3 =>
          require (secondFits first) 1 rest fun second rest =>
            require isContinuation 2 rest fun third rest =>
              scalar (((first.toNat - 0xe0) * 64 + continuationBits second) * 64 +
                continuationBits third) rest
      | 4 =>
          require (secondFits first) 1 rest fun second rest =>
            require isContinuation 2 rest fun third rest =>
              require isContinuation 3 rest fun fourth rest =>
                scalar ((((first.toNat - 0xf0) * 64 + continuationBits second) * 64 +
                  continuationBits third) * 64 + continuationBits fourth) rest
      | _ => some (.invalid 1, rest)

/-! ## Answers are final -/

section Require

variable {fits : UInt8 → Bool} {seen : Nat} {bytes rest : List UInt8} {item : Item}
  {go : UInt8 → List UInt8 → Option (Item × List UInt8)}

theorem require_shrinks
    (goShrinks : ∀ byte later, go byte later = some (item, rest) → rest.length ≤ later.length)
    (taken : require fits seen bytes go = some (item, rest)) : rest.length ≤ bytes.length := by
  cases bytes with
  | nil => simp [require] at taken
  | cons byte later =>
      simp only [require] at taken
      split at taken
      · exact Nat.le_succ_of_le (goShrinks byte later taken)
      · cases taken
        exact Nat.le_refl _

theorem require_stable (more : List UInt8)
    (goStable : ∀ byte later, go byte later = some (item, rest) →
      go byte (later ++ more) = some (item, rest ++ more))
    (taken : require fits seen bytes go = some (item, rest)) :
    require fits seen (bytes ++ more) go = some (item, rest ++ more) := by
  cases bytes with
  | nil => simp [require] at taken
  | cons byte later =>
      simp only [require, List.cons_append] at taken ⊢
      split at taken
      · next fitting =>
          rw [if_pos fitting]
          exact goStable byte later taken
      · next unfit =>
          rw [if_neg unfit]
          cases taken
          rfl

theorem require_waits {bound : Nat}
    (goWaits : ∀ byte later, go byte later = none → later.length < bound)
    (waits : require fits seen bytes go = none) : bytes.length ≤ bound := by
  cases bytes with
  | nil => simp
  | cons byte later =>
      simp only [require] at waits
      split at waits
      · exact goWaits byte later waits
      · cases waits

/-- An ill-formed sequence ends after the bytes read, or later. -/
theorem require_invalid {input : List UInt8} {length : Nat} (positive : 0 < seen)
    (here : input.drop seen = bytes)
    (goInvalid : ∀ byte later, input.drop (seen + 1) = later →
      go byte later = some (.invalid length, rest) → 0 < length ∧ input.drop length = rest)
    (taken : require fits seen bytes go = some (.invalid length, rest)) :
    0 < length ∧ input.drop length = rest := by
  cases bytes with
  | nil => simp [require] at taken
  | cons byte later =>
      simp only [require] at taken
      split at taken
      · refine goInvalid byte later ?_ taken
        rw [← List.drop_drop, here]
        rfl
      · cases taken
        exact ⟨positive, here⟩

/-- A scalar is read from its own bytes alone. -/
theorem require_scalar {char : Char}
    (goScalar : ∀ byte later, go byte later = some (.scalar char, rest) →
      ∃ used, later = used ++ rest ∧ go byte used = some (.scalar char, []))
    (taken : require fits seen bytes go = some (.scalar char, rest)) :
    ∃ used, bytes = used ++ rest ∧ require fits seen used go = some (.scalar char, []) := by
  cases bytes with
  | nil => simp [require] at taken
  | cons byte later =>
      simp only [require] at taken
      split at taken
      · next fitting =>
          obtain ⟨used, rfl, own⟩ := goScalar byte later taken
          exact ⟨byte :: used, rfl, by simpa [require, fitting] using own⟩
      · cases taken

end Require

theorem scalar_eq_some {code : Nat} {later rest : List UInt8} {item : Item}
    (taken : scalar code later = some (item, rest)) :
    item = .scalar (Char.ofNat code) ∧ later = rest := by
  cases taken
  exact ⟨rfl, rfl⟩

theorem scalar_stable (more : List UInt8) {code : Nat} {later rest : List UInt8} {item : Item}
    (taken : scalar code later = some (item, rest)) :
    scalar code (later ++ more) = some (item, rest ++ more) := by
  obtain ⟨rfl, rfl⟩ := scalar_eq_some taken
  rfl

theorem next_shrinks (input : List UInt8) (item : Item) (rest : List UInt8)
    (taken : next input = some (item, rest)) : rest.length < input.length := by
  have ends : ∀ code later, scalar code later = some (item, rest) → rest.length ≤ later.length :=
    fun code later read => Nat.le_of_eq (congrArg List.length (scalar_eq_some read).2.symm)
  cases input with
  | nil => simp [next] at taken
  | cons first later =>
      refine Nat.lt_succ_of_le ?_
      simp only [next] at taken
      split at taken
      · exact ends _ later taken
      · exact require_shrinks (fun _ => ends _) taken
      · exact require_shrinks (fun _ _ => require_shrinks fun _ => ends _) taken
      · exact require_shrinks (fun _ _ => require_shrinks fun _ _ => require_shrinks fun _ =>
          ends _) taken
      · cases taken
        exact Nat.le_refl _

theorem next_stable (input : List UInt8) (item : Item) (rest : List UInt8)
    (taken : next input = some (item, rest)) (more : List UInt8) :
    next (input ++ more) = some (item, rest ++ more) := by
  cases input with
  | nil => simp [next] at taken
  | cons first later =>
      simp only [next, List.cons_append] at taken ⊢
      split at taken
      · exact scalar_stable more taken
      · exact require_stable more (fun _ _ => scalar_stable more) taken
      · exact require_stable more (fun _ _ => require_stable more fun _ _ => scalar_stable more)
          taken
      · exact require_stable more (fun _ _ => require_stable more fun _ _ =>
          require_stable more fun _ _ => scalar_stable more) taken
      · cases taken
        rfl

/-- An undecided sequence is shorter than the longest one. -/
theorem length_le_of_next_eq_none (input : List UInt8) (waits : next input = none) :
    input.length ≤ 3 := by
  have decided : ∀ code later, scalar code later = none → later.length < 0 :=
    fun code later read => by cases read
  have oneMore : ∀ {fits seen bytes go bound}, (∀ byte later, go byte later = none →
      later.length < bound) → require fits seen bytes go = none → bytes.length < bound + 1 :=
    fun goWaits waits => Nat.lt_succ_of_le (require_waits goWaits waits)
  cases input with
  | nil => simp
  | cons first later =>
      refine Nat.succ_le_succ ?_
      simp only [next] at waits
      split at waits
      · cases waits
      · exact Nat.le_trans (require_waits (fun _ => decided _) waits) (Nat.zero_le 2)
      · exact Nat.le_succ_of_le (require_waits (fun _ _ => oneMore fun _ => decided _) waits)
      · exact require_waits (fun _ _ => oneMore fun _ _ => oneMore fun _ => decided _) waits
      · cases waits

/-- An ill-formed sequence is at the front of the input, as long as it says. -/
theorem next_invalid (input : List UInt8) (length : Nat) (rest : List UInt8)
    (taken : next input = some (.invalid length, rest)) :
    0 < length ∧ input.drop length = rest := by
  have wellFormed : ∀ code later, scalar code later = some (.invalid length, rest) →
      0 < length ∧ input.drop length = rest := fun code later read => by cases read
  cases input with
  | nil => simp [next] at taken
  | cons first later =>
      simp only [next] at taken
      split at taken
      · exact wellFormed _ later taken
      · exact require_invalid Nat.one_pos rfl (fun _ later _ => wellFormed _ later) taken
      · refine require_invalid Nat.one_pos rfl (fun _ later here => ?_) taken
        exact require_invalid Nat.two_pos here fun _ later _ => wellFormed _ later
      · refine require_invalid Nat.one_pos rfl (fun _ later here => ?_) taken
        refine require_invalid Nat.two_pos here fun _ later here => ?_
        exact require_invalid (Nat.succ_pos 2) here fun _ later _ => wellFormed _ later
      · cases taken
        exact ⟨Nat.one_pos, rfl⟩

theorem next_scalar (input : List UInt8) (char : Char) (rest : List UInt8)
    (taken : next input = some (.scalar char, rest)) :
    ∃ used, input = used ++ rest ∧ next used = some (.scalar char, []) := by
  have ends : ∀ code later, scalar code later = some (.scalar char, rest) →
      ∃ used, later = used ++ rest ∧ scalar code used = some (.scalar char, []) := by
    intro code later read
    obtain ⟨isChar, rfl⟩ := scalar_eq_some read
    exact ⟨[], rfl, by rw [isChar]; rfl⟩
  cases input with
  | nil => simp [next] at taken
  | cons first later =>
      have own : ∃ used, later = used ++ rest ∧ next (first :: used) = some (.scalar char, []) := by
        simp only [next] at taken ⊢
        split at taken
        · exact ends _ later taken
        · exact require_scalar (fun _ => ends _) taken
        · exact require_scalar (fun _ _ => require_scalar fun _ => ends _) taken
        · exact require_scalar (fun _ _ => require_scalar fun _ _ => require_scalar fun _ =>
            ends _) taken
        · cases taken
      obtain ⟨used, rfl, read⟩ := own
      exact ⟨first :: used, rfl, read⟩

def items : Tokenizer UInt8 Item where
  next := next
  shrinks := next_shrinks
  stable := next_stable

/-! ## `from_utf8` -/

/-- The text of the longest valid beginning, and the bytes behind it. -/
def validPrefix (bytes : List UInt8) : List Char × List UInt8 :=
  match _taken : next bytes with
  | some (.scalar char, rest) => (char :: (validPrefix rest).1, (validPrefix rest).2)
  | _ => ([], bytes)
termination_by bytes.length
decreasing_by all_goals exact next_shrinks bytes _ rest _taken

structure Utf8Error where
  validUpTo : Nat
  errorLen : Option Nat
  deriving DecidableEq

/-- The length of the ill-formed sequence at the front; none when the input ends in
it. -/
def errorLen (bytes : List UInt8) : Option Nat :=
  match next bytes with
  | some (.invalid length, _) => some length
  | _ => none

def fromUtf8 (bytes : List UInt8) : Except Utf8Error (List Char) :=
  if (validPrefix bytes).2 = [] then .ok (validPrefix bytes).1
  else .error {
    validUpTo := bytes.length - (validPrefix bytes).2.length
    errorLen := errorLen (validPrefix bytes).2 }

/-- `String::from_utf8_lossy` -/
def fromUtf8Lossy (bytes : List UInt8) : List Char :=
  match _taken : next bytes with
  | some (item, rest) => item.text ++ fromUtf8Lossy rest
  | none => if bytes = [] then [] else [replacement]
termination_by bytes.length
decreasing_by exact next_shrinks bytes item rest _taken

theorem validPrefix_of_scalar {bytes rest : List UInt8} {char : Char}
    (taken : next bytes = some (.scalar char, rest)) :
    validPrefix bytes = (char :: (validPrefix rest).1, (validPrefix rest).2) := by
  rw [validPrefix]
  split
  · next read =>
      rw [taken] at read
      cases read
      rfl
  · next other => exact absurd taken (other char rest)

theorem validPrefix_of_other {bytes : List UInt8}
    (other : ∀ char rest, next bytes ≠ some (.scalar char, rest)) :
    validPrefix bytes = ([], bytes) := by
  rw [validPrefix]
  split
  · next char rest taken => exact absurd taken (other char rest)
  · rfl

@[simp]
theorem validPrefix_nil : validPrefix [] = ([], []) :=
  validPrefix_of_other fun char rest => by simp [next]

@[simp]
theorem fromUtf8Lossy_nil : fromUtf8Lossy [] = [] := by
  rw [fromUtf8Lossy]
  rfl

theorem fromUtf8Lossy_of_some {bytes rest : List UInt8} {item : Item}
    (taken : next bytes = some (item, rest)) :
    fromUtf8Lossy bytes = item.text ++ fromUtf8Lossy rest := by
  rw [fromUtf8Lossy]
  split
  · next read =>
      rw [taken] at read
      cases read
      rfl
  · next none => simp [taken] at none

/-- What `from_utf8` has looked at when it stops: the valid beginning is a valid
text of its own, and no scalar stands behind it. -/
theorem validPrefix_spec (bytes : List UInt8) :
    (∃ valid, bytes = valid ++ (validPrefix bytes).2 ∧
      validPrefix valid = ((validPrefix bytes).1, [])) ∧
    (∀ char rest, next (validPrefix bytes).2 ≠ some (.scalar char, rest)) ∧
    items.drain bytes = ((validPrefix bytes).1.map .scalar ++ (items.drain (validPrefix bytes).2).1,
      (items.drain (validPrefix bytes).2).2) := by
  by_cases scalar : ∃ char rest, next bytes = some (.scalar char, rest)
  · obtain ⟨char, rest, taken⟩ := scalar
    have shorter := next_shrinks bytes _ rest taken
    obtain ⟨⟨valid, bytesEq, validEq⟩, other, drained⟩ := validPrefix_spec rest
    obtain ⟨used, usedEq, own⟩ := next_scalar bytes char rest taken
    rw [validPrefix_of_scalar taken]
    refine ⟨⟨used ++ valid, ?_, ?_⟩, other, ?_⟩
    · rw [usedEq, List.append_assoc, ← bytesEq]
    · rw [validPrefix_of_scalar (next_stable used _ [] own valid), List.nil_append, validEq]
    · have read : items.next bytes = some (.scalar char, rest) := taken
      rw [Tokenizer.drain_of_some read, drained]
      rfl
  · simp only [not_exists] at scalar
    rw [validPrefix_of_other scalar]
    exact ⟨⟨[], rfl, validPrefix_nil⟩, scalar, rfl⟩
termination_by bytes.length

/-- The lossy text is that of the items, with one replacement for an undecided end. -/
theorem fromUtf8Lossy_eq_drain (bytes : List UInt8) :
    fromUtf8Lossy bytes =
      (items.drain bytes).1.flatMap Item.text ++ fromUtf8Lossy (items.drain bytes).2 := by
  cases taken : next bytes with
  | none =>
      have waits : items.next bytes = none := taken
      rw [Tokenizer.drain_of_none waits]
      rfl
  | some answer =>
      obtain ⟨item, rest⟩ := answer
      have shorter := next_shrinks bytes item rest taken
      have read : items.next bytes = some (item, rest) := taken
      rw [fromUtf8Lossy_of_some taken, Tokenizer.drain_of_some read, fromUtf8Lossy_eq_drain rest]
      simp
termination_by bytes.length

/-! ## Encoding -/

/-- The bytes of a character. -/
def encodeChar (char : Char) : List UInt8 :=
  if char.toNat < 0x80 then [UInt8.ofNat char.toNat]
  else if char.toNat < 0x800 then
    [UInt8.ofNat (0xc0 + char.toNat / 64), UInt8.ofNat (0x80 + char.toNat % 64)]
  else if char.toNat < 0x10000 then
    [UInt8.ofNat (0xe0 + char.toNat / 4096), UInt8.ofNat (0x80 + char.toNat / 64 % 64),
      UInt8.ofNat (0x80 + char.toNat % 64)]
  else
    [UInt8.ofNat (0xf0 + char.toNat / 262144), UInt8.ofNat (0x80 + char.toNat / 4096 % 64),
      UInt8.ofNat (0x80 + char.toNat / 64 % 64), UInt8.ofNat (0x80 + char.toNat % 64)]

/-- `str::as_bytes` -/
def encode (text : List Char) : List UInt8 := text.flatMap encodeChar

theorem toNat_ofNat_of_lt {value : Nat} (small : value < 256) :
    (UInt8.ofNat value).toNat = value := by
  rw [UInt8.toNat_ofNat']
  omega

theorem isContinuation_ofNat (value : Nat) :
    isContinuation (UInt8.ofNat (0x80 + value % 64)) = true := by
  have bits : (UInt8.ofNat (0x80 + value % 64)).toNat = 0x80 + value % 64 :=
    toNat_ofNat_of_lt (by omega)
  simp only [isContinuation, UInt8.le_iff_toNat_le, bits, Bool.and_eq_true, decide_eq_true_eq,
    UInt8.reduceToNat]
  omega

theorem continuationBits_ofNat (value : Nat) :
    continuationBits (UInt8.ofNat (0x80 + value % 64)) = value % 64 := by
  have bits : (UInt8.ofNat (0x80 + value % 64)).toNat = 0x80 + value % 64 :=
    toNat_ofNat_of_lt (by omega)
  unfold continuationBits
  omega

theorem charWidth_ofNat {value : Nat} (small : value < 256) :
    charWidth (UInt8.ofNat value) =
      if value ≤ 0x7f then 1
      else if 0xc2 ≤ value ∧ value ≤ 0xdf then 2
      else if 0xe0 ≤ value ∧ value ≤ 0xef then 3
      else if 0xf0 ≤ value ∧ value ≤ 0xf4 then 4
      else 0 := by
  simp only [charWidth, UInt8.le_iff_toNat_le, toNat_ofNat_of_lt small, UInt8.reduceToNat,
    Bool.and_eq_true, decide_eq_true_eq]

theorem secondFits_ofNat {first second : Nat} (firstSmall : first < 256)
    (secondSmall : second < 256) :
    secondFits (UInt8.ofNat first) (UInt8.ofNat second) =
      if first = 0xe0 then decide (0xa0 ≤ second ∧ second ≤ 0xbf)
      else if first = 0xed then decide (0x80 ≤ second ∧ second ≤ 0x9f)
      else if first = 0xf0 then decide (0x90 ≤ second ∧ second ≤ 0xbf)
      else if first = 0xf4 then decide (0x80 ≤ second ∧ second ≤ 0x8f)
      else decide (0x80 ≤ second ∧ second ≤ 0xbf) := by
  simp only [secondFits, isContinuation, ← UInt8.toNat_inj, UInt8.le_iff_toNat_le,
    toNat_ofNat_of_lt firstSmall, toNat_ofNat_of_lt secondSmall, UInt8.reduceToNat,
    Bool.decide_and]

/-- A character is read back from its bytes. -/
theorem next_encodeChar (char : Char) (rest : List UInt8) :
    next (encodeChar char ++ rest) = some (.scalar char, rest) := by
  have valid : char.toNat < 0xd800 ∨ 0xe000 ≤ char.toNat ∧ char.toNat < 0x110000 := by
    have := char.valid
    simp only [UInt32.isValidChar, Nat.isValidChar] at this
    simp only [Char.toNat]
    omega
  conv_rhs => rw [← Char.ofNat_toNat char]
  unfold encodeChar
  generalize char.toNat = code at valid
  split
  · rw [List.singleton_append, next, charWidth_ofNat (by omega), if_pos (by omega),
      toNat_ofNat_of_lt (by omega)]
    rfl
  split
  · have isCode : (0xc0 + code / 64 - 0xc0) * 64 + code % 64 = code := by omega
    rw [List.cons_append, List.singleton_append, next, charWidth_ofNat (by omega),
      if_neg (by omega), if_pos (by omega)]
    simp only [require, isContinuation_ofNat, if_true, continuationBits_ofNat]
    rw [toNat_ofNat_of_lt (by omega), isCode]
    rfl
  split
  · have isCode : ((0xe0 + code / 4096 - 0xe0) * 64 + code / 64 % 64) * 64 + code % 64 = code := by
      omega
    have fits : secondFits (UInt8.ofNat (0xe0 + code / 4096))
        (UInt8.ofNat (0x80 + code / 64 % 64)) = true := by
      rw [secondFits_ofNat (by omega) (by omega)]
      split_ifs <;> simp only [decide_eq_true_eq] <;> omega
    simp only [List.cons_append, List.nil_append]
    rw [next, charWidth_ofNat (by omega), if_neg (by omega), if_neg (by omega), if_pos (by omega)]
    simp only [require, fits, isContinuation_ofNat, if_true, continuationBits_ofNat]
    rw [toNat_ofNat_of_lt (by omega), isCode]
    rfl
  · have isCode : (((0xf0 + code / 262144 - 0xf0) * 64 + code / 4096 % 64) * 64 +
        code / 64 % 64) * 64 + code % 64 = code := by
      omega
    have fits : secondFits (UInt8.ofNat (0xf0 + code / 262144))
        (UInt8.ofNat (0x80 + code / 4096 % 64)) = true := by
      rw [secondFits_ofNat (by omega) (by omega)]
      split_ifs <;> simp only [decide_eq_true_eq] <;> omega
    simp only [List.cons_append, List.nil_append]
    rw [next, charWidth_ofNat (by omega), if_neg (by omega), if_neg (by omega), if_neg (by omega),
      if_pos (by omega)]
    simp only [require, fits, isContinuation_ofNat, if_true, continuationBits_ofNat]
    rw [toNat_ofNat_of_lt (by omega), isCode]
    rfl

theorem fromUtf8Lossy_encode_append (text : List Char) (rest : List UInt8) :
    fromUtf8Lossy (encode text ++ rest) = text ++ fromUtf8Lossy rest := by
  induction text with
  | nil => rfl
  | cons char others inductionHypothesis =>
      have isEncode :
          encode (char :: others) ++ rest = encodeChar char ++ (encode others ++ rest) :=
        List.append_assoc _ _ _
      rw [isEncode, fromUtf8Lossy_of_some (next_encodeChar char _), inductionHypothesis]
      rfl

theorem fromUtf8Lossy_encode (text : List Char) : fromUtf8Lossy (encode text) = text := by
  have whole := fromUtf8Lossy_encode_append text []
  rwa [List.append_nil, fromUtf8Lossy_nil, List.append_nil] at whole

theorem next_of_isContinuation {byte : UInt8} (continues : isContinuation byte = true)
    (rest : List UInt8) : next (byte :: rest) = some (.invalid 1, rest) := by
  have width : charWidth byte = 0 := by
    simp only [isContinuation, UInt8.le_iff_toNat_le, Bool.and_eq_true, decide_eq_true_eq,
      UInt8.reduceToNat] at continues
    have small : byte.toNat < 256 := byte.toNat_lt
    rw [← UInt8.ofNat_toNat (x := byte), charWidth_ofNat small, if_neg (by omega),
      if_neg (by omega), if_neg (by omega), if_neg (by omega)]
  rw [next, width]
  rfl

theorem isContinuation_of_mem_drop {char : Char} {start : Nat} {byte : UInt8}
    (member : byte ∈ (encodeChar char).drop (start + 1)) : isContinuation byte = true := by
  have inTail : byte ∈ (encodeChar char).tail := by
    rw [← List.drop_one]
    exact List.drop_subset_drop_left _ (Nat.le_add_left 1 start) member
  unfold encodeChar at inTail
  split_ifs at inTail <;> simp only [List.tail_cons, List.mem_cons, List.not_mem_nil, or_false]
    at inTail
  · exact inTail ▸ isContinuation_ofNat _
  · rcases inTail with rfl | rfl <;> exact isContinuation_ofNat _
  · rcases inTail with rfl | rfl | rfl <;> exact isContinuation_ofNat _

theorem fromUtf8Lossy_stray_append {stray : List UInt8}
    (continues : ∀ byte ∈ stray, isContinuation byte = true) (rest : List UInt8) :
    fromUtf8Lossy (stray ++ rest) =
      List.replicate stray.length replacement ++ fromUtf8Lossy rest := by
  induction stray with
  | nil => rfl
  | cons byte others inductionHypothesis =>
      obtain ⟨first, later⟩ := List.forall_mem_cons.mp continues
      rw [List.cons_append, fromUtf8Lossy_of_some (next_of_isContinuation first _),
        inductionHypothesis later]
      rfl

/-- Bytes from inside of a text: what is left of a character that is cut, and a text. -/
theorem exists_drop_encode (text : List Char) (start : Nat) : ∃ front rest count,
    text = front ++ rest ∧
      fromUtf8Lossy ((encode text).drop start) = List.replicate count replacement ++ rest := by
  induction text generalizing start with
  | nil => exact ⟨[], [], 0, rfl, by simp [encode]⟩
  | cons char others inductionHypothesis =>
      have isEncode : encode (char :: others) = encodeChar char ++ encode others := rfl
      cases start with
      | zero =>
          refine ⟨[], char :: others, 0, rfl, ?_⟩
          rw [List.drop_zero, fromUtf8Lossy_encode]
          rfl
      | succ start =>
          rcases Nat.lt_or_ge (start + 1) (encodeChar char).length with inside | beyond
          · refine ⟨[char], others, ((encodeChar char).drop (start + 1)).length, rfl, ?_⟩
            rw [isEncode, List.drop_append_of_le_length (Nat.le_of_lt inside),
              fromUtf8Lossy_stray_append fun byte => isContinuation_of_mem_drop,
              fromUtf8Lossy_encode]
          · obtain ⟨front, rest, count, rfl, isText⟩ :=
              inductionHypothesis (start + 1 - (encodeChar char).length)
            refine ⟨char :: front, rest, count, rfl, ?_⟩
            rw [isEncode, List.drop_append, List.drop_of_length_le beyond, List.nil_append, isText]

/-- A byte of ASCII stands only for its own character. -/
theorem mem_of_mem_encode {char : Char} (isAscii : char.toNat < 0x80) {text : List Char}
    (member : UInt8.ofNat char.toNat ∈ encode text) : char ∈ text := by
  obtain ⟨original, inText, inCode⟩ := List.mem_flatMap.mp member
  suffices original = char from this ▸ inText
  have valid : original.toNat < 0x110000 := by
    have := original.valid
    simp only [UInt32.isValidChar, Nat.isValidChar] at this
    simp only [Char.toNat]
    omega
  have isByte : (UInt8.ofNat char.toNat).toNat = char.toNat := toNat_ofNat_of_lt (by omega)
  have wide : ∀ byte, 0x80 ≤ byte → byte < 256 → UInt8.ofNat char.toNat ≠ UInt8.ofNat byte := by
    intro byte large small same
    have := congrArg UInt8.toNat same
    rw [isByte, toNat_ofNat_of_lt small] at this
    omega
  unfold encodeChar at inCode
  split at inCode
  · have same := congrArg UInt8.toNat (List.mem_singleton.mp inCode)
    rw [isByte, toNat_ofNat_of_lt (by omega)] at same
    exact (Char.toNat_inj.mp same).symm
  · exfalso
    split_ifs at inCode <;> simp only [List.mem_cons, List.not_mem_nil, or_false] at inCode
    · rcases inCode with same | same <;> exact wide _ (by omega) (by omega) same
    · rcases inCode with same | same | same <;> exact wide _ (by omega) (by omega) same
    · rcases inCode with same | same | same | same <;> exact wide _ (by omega) (by omega) same

theorem length_encode_le (text : List Char) : (encode text).length ≤ 4 * text.length := by
  induction text with
  | nil => exact Nat.le_refl 0
  | cons char rest inductionHypothesis =>
      have isEncode : encode (char :: rest) = encodeChar char ++ encode rest := rfl
      have short : (encodeChar char).length ≤ 4 := by
        unfold encodeChar
        split_ifs <;> simp
      rw [isEncode, List.length_append, List.length_cons]
      omega

theorem length_encode_of_ascii {text : List Char} (ascii : ∀ char ∈ text, char.toNat < 0x80) :
    (encode text).length = text.length := by
  induction text with
  | nil => rfl
  | cons char rest inductionHypothesis =>
      obtain ⟨first, later⟩ := List.forall_mem_cons.mp ascii
      have isEncode : encode (char :: rest) = encodeChar char ++ encode rest := rfl
      have single : (encodeChar char).length = 1 := by
        rw [encodeChar, if_pos first]
        rfl
      rw [isEncode, List.length_append, single, inductionHypothesis later, List.length_cons,
        Nat.add_comm]

end Utf8
