import Ryze.HttpParser.HttpDecodeChunked

set_option autoImplicit false

/-! # Hexadecimal numerals

Both copies of `str_parse_hex` give the first digit they meet the weight 1. A numeral of more than
eight digits, leading zeros included, is shifted out of an `int`, so the value comes out right exactly
for a short palindrome. A byte that is no digit is reported unless a digit in front of it is shifted
out of the `int` first. -/

namespace Ryze

open CLib

/-! ## How the digit loop ends -/

/-- The loop reports 0 or -1, or stops at a shift. -/
theorem hexLoop_cases (ds : List UInt8) {left : Nat} (hleft : left ≤ ds.length) (base result : Nat) :
    hexLoop ds left base result = .error .shift ∨
      (∃ n, hexLoop ds left base result = .ok (0, n)) ∨
      ∃ n, hexLoop ds left base result = .ok (-1, n) := by
  induction ds generalizing left base result with
  | nil =>
      obtain rfl : left = 0 := by simpa using hleft
      exact Or.inr (Or.inl ⟨result, rfl⟩)
  | cons c ds ih =>
      cases left with
      | zero => exact Or.inr (Or.inl ⟨result, rfl⟩)
      | succ left =>
          simp only [hexLoop]
          cases hexDigit c with
          | none => exact Or.inr (Or.inr ⟨result, rfl⟩)
          | some n =>
              by_cases hfit : base < 32 ∧ n * 2 ^ base < 2 ^ 31
              · simp only [intShl, if_pos hfit, ok_bind]
                exact ih (by simpa using hleft) (base + 4) _
              · simp only [intShl, if_neg hfit]
                exact Or.inl rfl

/-- The loop reports -1 exactly if there is a byte that is no digit and all digits in front of the
    first such byte fit. -/
theorem hexLoop_refuses_iff {w rest : List UInt8} :
    (∃ n, hexLoop (w ++ rest) w.length 0 0 = .ok (-1, n)) ↔
      (∃ c ∈ w, isHexDigit c = false) ∧ FitsInt (leadingDigits w) := by
  have hshift : hexLoop (w ++ rest) w.length 0 0 = .error .shift ↔ ¬ FitsInt (leadingDigits w) := by
    have hiff := @hexLoop_error_iff (w ++ rest) w.length (by simp) 0 0
    rwa [List.take_left, Nat.mul_zero, fitsAt_zero (fun d => mem_leadingDigits)] at hiff
  constructor
  · rintro ⟨n, hrun⟩
    constructor
    · by_contra hnot
      have hall : ∀ c ∈ w, isHexDigit c = true := fun c hc => by
        by_contra hc'
        exact hnot ⟨c, hc, by simpa using hc'⟩
      have hlead : leadingDigits w = w.map hexDigitVal := by
        rw [leadingDigits, List.takeWhile_eq_self_iff.2 hall]
      by_cases hfits : FitsInt (leadingDigits w)
      · rw [hexLoop_zero_iff.2 ⟨hall, hlead ▸ hfits, rfl⟩] at hrun
        cases hrun
      · rw [hshift.2 hfits] at hrun
        cases hrun
    · by_contra hfits
      rw [hshift.2 hfits] at hrun
      cases hrun
  · rintro ⟨⟨c, hc, hdigit⟩, hfits⟩
    have hleft : w.length ≤ (w ++ rest).length := by simp
    rcases hexLoop_cases (w ++ rest) hleft 0 0 with herr | ⟨n, hzero⟩ | hneg
    · exact absurd hfits (hshift.1 herr)
    · rw [(hexLoop_zero_iff.1 hzero).1 c hc] at hdigit
      cases hdigit
    · exact hneg

/-- The copy reports -1 where the server's parser does: no numeral has a negative value. -/
theorem Http.strParseHex_refuses_iff {w rest : List UInt8} :
    Http.strParseHex (w ++ rest) w.length = .ok (-1) ↔
      ∃ n, Ryze.hexLoop (w ++ rest) w.length 0 0 = .ok (-1, n) := by
  rw [Http.strParseHex_eq, Ryze.strParseHex, Int.toNat_natCast]
  have hleft : w.length ≤ (w ++ rest).length := by simp
  rcases hexLoop_cases (w ++ rest) hleft 0 0 with herr | ⟨n, hzero⟩ | ⟨n, hneg⟩
  · rw [herr]
    simp [Except.map]
  · rw [hzero]
    simp only [Except.map, if_true, Except.ok.injEq, Prod.mk.injEq]
    constructor
    · intro h
      omega
    · rintro ⟨m, h, -⟩
      cases h
  · rw [hneg]
    simp [Except.map]

/-! ## Numerals and other fields -/

/-- Both copies read the field `w` as the value of its digits. -/
def ReadsNumeral (w rest : List UInt8) : Prop :=
  strParseHex (w ++ rest) w.length = .ok (0, hexValue w) ∧
    Http.strParseHex (w ++ rest) w.length = .ok (hexValue w)

/-- Both copies report -1 for the field `w`. -/
def RefusesField (w rest : List UInt8) : Prop :=
  (∃ n, strParseHex (w ++ rest) w.length = .ok (-1, n)) ∧
    Http.strParseHex (w ++ rest) w.length = .ok (-1)

/-- A palindrome of at most eight digits is as good a numeral as the one that was meant, and its last
    digit is as small as its first. -/
theorem fitsInt_of_palindrome {w : List UInt8} (hsize : hexValue w < 2 ^ 31) (hlen : w.length ≤ 8)
    (hpal : (w.map hexDigitVal).Palindrome) : FitsInt (w.map hexDigitVal) := by
  refine ⟨by rwa [List.length_map], ?_⟩
  have hle := pow_mul_getD_le_ofDigits (w.map hexDigitVal) 7
  rw [← (ofDigits_reverse_iff (hexDigitVals_lt w)).2 hpal, ← hexValue_eq] at hle
  omega

theorem readsNumeral_iff {w rest : List UInt8} (hw : ∀ c ∈ w, isHexDigit c = true)
    (hsize : hexValue w < 2 ^ 31) :
    ReadsNumeral w rest ↔ w.length ≤ 8 ∧ (w.map hexDigitVal).Palindrome := by
  rw [ReadsNumeral, strParseHex, Int.toNat_natCast, hexLoop_zero_iff, Http.strParseHex_ok_iff,
    and_self, hexValue_eq, ofDigits_reverse_iff (hexDigitVals_lt w)]
  constructor
  · rintro ⟨-, hfits, hpal⟩
    exact ⟨by simpa using hfits.1, hpal⟩
  · rintro ⟨hlen, hpal⟩
    exact ⟨hw, fitsInt_of_palindrome hsize hlen hpal, hpal⟩

theorem refusesField_iff {w rest : List UInt8} (hw : ∃ c ∈ w, isHexDigit c = false) :
    RefusesField w rest ↔ FitsInt (leadingDigits w) := by
  rw [RefusesField, strParseHex, Int.toNat_natCast, Http.strParseHex_refuses_iff, and_self,
    hexLoop_refuses_iff, and_iff_right hw]

/-- **Which fields `str_parse_hex` reads right.** -/
theorem strParseHex_numerals (w rest : List UInt8) :
    (w ≠ [] → (∀ c ∈ w, isHexDigit c = true) → hexValue w < 2 ^ 31 →
      (ReadsNumeral w rest ↔ w.length ≤ 8 ∧ (w.map hexDigitVal).Palindrome)) ∧
    ((∃ c ∈ w, isHexDigit c = false) → (RefusesField w rest ↔ FitsInt (leadingDigits w))) :=
  ⟨fun _ hw hsize => readsNumeral_iff hw hsize, refusesField_iff⟩

/-- `1f1` is read as 497, and `1g` is refused. -/
theorem strParseHex_numerals_examples :
    (ReadsNumeral (bytes "1f1") [] ∧ hexValue (bytes "1f1") = 497) ∧
      RefusesField (bytes "1g") [] := by
  refine ⟨⟨((strParseHex_numerals (bytes "1f1") []).1 (by decide) (List.all_eq_true.1 (by decide))
    (by decide)).2 ⟨by decide, List.Palindrome.of_reverse_eq (by decide)⟩, by decide⟩, ?_⟩
  exact ((strParseHex_numerals (bytes "1g") []).2 ⟨103, by decide, by decide⟩).2 (by decide)

/-- `10` is read as 1, and the zeros of `000000000g` are shifted out of the `int` before the `g` is
    met. -/
theorem strParseHex_misreads :
    (¬ ∀ w rest : List UInt8, w ≠ [] → (∀ c ∈ w, isHexDigit c = true) → hexValue w < 2 ^ 31 →
      ReadsNumeral w rest) ∧
    ¬ ∀ w rest : List UInt8, (∃ c ∈ w, isHexDigit c = false) → RefusesField w rest := by
  constructor
  · intro h
    have hrun : strParseHex (bytes "10" ++ []) (bytes "10").length = .ok (0, 1) := by decide +kernel
    have hreads := (h (bytes "10") [] (by decide) (List.all_eq_true.1 (by decide)) (by decide)).1
    rw [hrun] at hreads
    exact absurd (Prod.mk.inj (Except.ok.inj hreads)).2 (by decide)
  · intro h
    have hrun : strParseHex (bytes "000000000g" ++ []) (bytes "000000000g").length
        = .error .shift := by decide +kernel
    obtain ⟨n, hn⟩ := (h (bytes "000000000g") [] ⟨103, by decide, by decide⟩).1
    rw [hrun] at hn
    cases hn

end Ryze
