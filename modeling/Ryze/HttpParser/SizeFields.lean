import Ryze.HttpParser.ChunkedWire
import Ryze.HttpParser.HexDigits

set_option autoImplicit false

/-! # Size fields

What the decoder reads off a size line, said of the line's bytes: the digits in front of the last `;`,
the least significant one first. -/

namespace Ryze

open CLib

/-- The bytes of a size line that are handed to `str_parse_hex`; their number is an `int`. -/
def parsedField (k : Nat) (line : List UInt8) : List UInt8 :=
  (sizeField k line).take (toInt32 (sizeField k line).length).toNat

/-- The field is a size: digits that fit, the least significant one first. -/
def IsSize (field : List UInt8) (n : Nat) : Prop :=
  field ≠ [] ∧ (∀ c ∈ field, isHexDigit c = true) ∧ FitsInt (field.map hexDigitVal) ∧
    n = Nat.ofDigits 16 (field.map hexDigitVal)

section Field

variable {k n : Nat} {line : List UInt8}

theorem parsedField_length :
    (parsedField k line).length = (toInt32 (sizeField k line).length).toNat := by
  rw [parsedField, List.length_take, Nat.min_eq_left (toInt32_toNat_le _)]

/-- The digit loop on the part of a line it is given. -/
theorem strParseHex_field : strParseHex (sizeField k line) (toInt32 (sizeField k line).length)
    = hexLoop (parsedField k line ++ (sizeField k line).drop (parsedField k line).length)
        (parsedField k line).length 0 0 := by
  rw [parsedField_length, parsedField, List.take_append_drop]
  rfl

theorem parsedField_ne_nil : parsedField k line ≠ [] ↔ 0 < toInt32 (sizeField k line).length := by
  rw [← List.length_pos_iff, parsedField_length]
  omega

theorem readSize_error_iff :
    readSize k line = .error .shift ↔ ¬ FitsInt (leadingDigits (parsedField k line)) := by
  have herr := hexLoop_error_iff (sizeField k line) (toInt32_toNat_le (sizeField k line).length) 0 0
  rw [fitsAt_zero (fun d hd => mem_leadingDigits hd), ← parsedField] at herr
  rw [← herr, readSize]
  by_cases hpos : 0 < toInt32 (sizeField k line).length
  · simp only [if_pos hpos, strParseHex, Nat.mul_zero]
    cases hexLoop (sizeField k line) (toInt32 (sizeField k line).length).toNat 0 0 with
    | error e => simp
    | ok r => simp
  · have hzero : (toInt32 (sizeField k line).length).toNat = 0 := by omega
    simp [if_neg hpos, hzero, hexLoop]

theorem readSize_some_iff : readSize k line = .ok (some n) ↔ IsSize (parsedField k line) n := by
  rw [IsSize, parsedField_ne_nil, ← hexLoop_zero_iff, ← strParseHex_field, readSize]
  by_cases hpos : 0 < toInt32 (sizeField k line).length
  · simp only [if_pos hpos]
    cases strParseHex (sizeField k line) (toInt32 (sizeField k line).length) with
    | error e => simp
    | ok r =>
        obtain ⟨ret, m⟩ := r
        by_cases hret : ret = 0
        · simp [hpos, hret]
        · simp [hret]
  · simp [hpos]

end Field

end Ryze
