import Ryze.HttpParser.Chunked
import Mathlib.Data.List.TakeWhile
import Mathlib.Data.Nat.Digits.Defs

set_option autoImplicit false

/-! # The digit loop of `str_parse_hex`

The loop shifts the digits of a field to places 0, 1, 2, … as it meets them, so it reads a numeral
with the least significant digit first (`hexLoop_value`). A digit at place 8 is shifted by 32, and one
at place 7 reaches the sign bit if it is 8 or more; these are the only digits that do not fit
(`hexLoop_error_iff`). -/

namespace Ryze

open CLib

def isHexDigit (c : UInt8) : Bool := (hexDigit c).isSome

/-- The value of a hexadecimal digit. -/
def hexDigitVal (c : UInt8) : Nat := (hexDigit c).getD 0

/-- The digits the loop reads before it stops. -/
def leadingDigits (field : List UInt8) : List Nat := (field.takeWhile isHexDigit).map hexDigitVal

/-- Digits that can be shifted to their places in an `int`: at most eight, the eighth below 8. -/
def FitsInt (digits : List Nat) : Prop := digits.length ≤ 8 ∧ digits.getD 7 0 < 8

instance (digits : List Nat) : Decidable (FitsInt digits) :=
  inferInstanceAs (Decidable (_ ∧ _))

theorem hexDigit_eq_some {c : UInt8} (hc : isHexDigit c = true) :
    hexDigit c = some (hexDigitVal c) := by
  rw [isHexDigit, Option.isSome_iff_exists] at hc
  obtain ⟨n, hn⟩ := hc
  rw [hexDigitVal, hn, Option.getD_some]

theorem hexDigitVal_lt (c : UInt8) : hexDigitVal c < 16 := by
  have hle : ∀ {a b : UInt8}, a ≤ b → a.toNat ≤ b.toNat := fun h => h
  unfold hexDigitVal hexDigit
  split
  · next h =>
      have := hle h.2
      simp only [Option.getD_some, UInt8.reduceToNat] at *
      omega
  · split
    · next h =>
        have := hle h.2
        simp only [Option.getD_some, UInt8.reduceToNat] at *
        omega
    · split
      · next h =>
          have := hle h.2
          simp only [Option.getD_some, UInt8.reduceToNat] at *
          omega
      · simp

/-! ## Which shifts are defined -/

/-- The digits fit when the first of them goes to place `k`. -/
def FitsAt : (k : Nat) → List Nat → Prop
  | _, [] => True
  | k, d :: ds => 4 * k < 32 ∧ d * 2 ^ (4 * k) < 2 ^ 31 ∧ FitsAt (k + 1) ds

theorem fitsAt_iff {k : Nat} {ds : List Nat} (hds : ∀ d ∈ ds, d < 16) (hk : k ≤ 8) :
    FitsAt k ds ↔ k + ds.length ≤ 8 ∧ (k ≤ 7 → ds.getD (7 - k) 0 < 8) := by
  induction ds generalizing k with
  | nil => simp [FitsAt, hk]
  | cons d ds ih =>
      have hd := hds d (List.mem_cons_self ..)
      by_cases h8 : k = 8
      · subst h8
        simp [FitsAt]
      · rw [FitsAt, ih (fun e he => hds e (List.mem_cons_of_mem _ he)) (by omega), List.length_cons]
        by_cases h7 : k = 7
        · subst h7
          simp only [Nat.sub_self, List.getD_cons_zero]
          omega
        · -- a digit at one of the first seven places has room
          have hpow : d * 2 ^ (4 * k) < 2 ^ 31 :=
            calc d * 2 ^ (4 * k) ≤ 15 * 2 ^ (4 * k) := Nat.mul_le_mul_right _ (by omega)
              _ ≤ 15 * 2 ^ 24 := Nat.mul_le_mul_left _ (Nat.pow_le_pow_right (by decide) (by omega))
              _ < 2 ^ 31 := by decide
          rw [show 7 - k = (7 - (k + 1)) + 1 by omega, List.getD_cons_succ]
          constructor
          · rintro ⟨-, -, hlen, hlast⟩
            exact ⟨by omega, fun _ => hlast (by omega)⟩
          · rintro ⟨hlen, hlast⟩
            exact ⟨by omega, hpow, by omega, fun _ => hlast (by omega)⟩

theorem fitsAt_zero {ds : List Nat} (hds : ∀ d ∈ ds, d < 16) : FitsAt 0 ds ↔ FitsInt ds := by
  rw [fitsAt_iff hds (Nat.zero_le 8), FitsInt]
  simp

theorem mem_leadingDigits {field : List UInt8} {d : Nat} (h : d ∈ leadingDigits field) : d < 16 := by
  obtain ⟨c, -, rfl⟩ := List.mem_map.1 h
  exact hexDigitVal_lt c

/-- Reading no further than the list is long, the loop stops exactly at a digit that does not fit. -/
theorem hexLoop_error_iff (ds : List UInt8) {left : Nat} (hleft : left ≤ ds.length) (k result : Nat) :
    hexLoop ds left (4 * k) result = .error .shift ↔ ¬ FitsAt k (leadingDigits (ds.take left)) := by
  induction ds generalizing left k result with
  | nil =>
      obtain rfl : left = 0 := by simpa using hleft
      simp [hexLoop, leadingDigits, FitsAt]
  | cons c ds ih =>
      cases left with
      | zero => simp [hexLoop, leadingDigits, FitsAt]
      | succ left =>
          rw [List.take_succ_cons, leadingDigits]
          by_cases hc : isHexDigit c = true
          · rw [List.takeWhile_cons_of_pos hc, List.map_cons, FitsAt]
            simp only [hexLoop, hexDigit_eq_some hc, intShl]
            by_cases hfit : 4 * k < 32 ∧ hexDigitVal c * 2 ^ (4 * k) < 2 ^ 31
            · rw [if_pos hfit, ok_bind, show 4 * k + 4 = 4 * (k + 1) by omega,
                ih (by simpa using hleft)]
              exact ⟨fun h hall => h hall.2.2, fun h hrest => h ⟨hfit.1, hfit.2, hrest⟩⟩
            · rw [if_neg hfit]
              refine iff_of_true rfl ?_
              rintro ⟨hplace, hroom, -⟩
              exact hfit ⟨hplace, hroom⟩
          · have hnone : hexDigit c = none := by
              simpa [isHexDigit] using hc
            rw [List.takeWhile_cons_of_neg hc]
            simp [hexLoop, hnone, FitsAt]

/-! ## The value of a field -/

/-- A field of digits is the numeral with the least significant digit first. -/
theorem hexLoop_value (w rest : List UInt8) (hw : ∀ c ∈ w, isHexDigit c = true) {k result : Nat}
    (hfits : FitsAt k (w.map hexDigitVal))
    (hsize : result + 2 ^ (4 * k) * Nat.ofDigits 16 (w.map hexDigitVal) < sizeMod) :
    hexLoop (w ++ rest) w.length (4 * k) result
      = .ok (0, result + 2 ^ (4 * k) * Nat.ofDigits 16 (w.map hexDigitVal)) := by
  induction w generalizing k result with
  | nil => simp [hexLoop]
  | cons c w ih =>
      have hc := hw c (List.mem_cons_self ..)
      obtain ⟨hplace, hroom, hfits⟩ := hfits
      have hsum : result + 2 ^ (4 * k) * Nat.ofDigits 16 ((c :: w).map hexDigitVal)
          = (result + hexDigitVal c * 2 ^ (4 * k))
            + 2 ^ (4 * (k + 1)) * Nat.ofDigits 16 (w.map hexDigitVal) := by
        rw [List.map_cons, Nat.ofDigits_cons]
        have hpow : 2 ^ (4 * (k + 1)) = 2 ^ (4 * k) * 16 := by rw [Nat.mul_add, Nat.pow_add]
        rw [hpow]
        ring
      rw [hsum] at hsize ⊢
      simp only [List.cons_append, List.length_cons, hexLoop, hexDigit_eq_some hc, intShl,
        if_pos (And.intro hplace hroom), ok_bind]
      rw [sizeAdd_of_lt (by omega), show 4 * k + 4 = 4 * (k + 1) by omega]
      exact ih (fun d hd => hw d (List.mem_cons_of_mem _ hd)) hfits hsize

/-- Only a field of digits is read to its end. -/
theorem hexLoop_zero {ds : List UInt8} {left base result n : Nat}
    (h : hexLoop ds left base result = .ok (0, n)) : ∀ c ∈ ds.take left, isHexDigit c = true := by
  induction ds generalizing left base result with
  | nil => simp
  | cons c ds ih =>
      cases left with
      | zero => simp
      | succ left =>
          simp only [hexLoop] at h
          split at h
          · cases h
          · next d hd =>
              obtain ⟨x, -, h⟩ := bind_eq_ok.1 h
              rw [List.take_succ_cons]
              intro e he
              rcases List.mem_cons.1 he with rfl | he
              · rw [isHexDigit, hd]
                rfl
              · exact ih h e he

theorem ofDigits_lt_size {ds : List Nat} (hds : ∀ d ∈ ds, d < 16) (hlen : ds.length ≤ 8) :
    Nat.ofDigits 16 ds < 2 ^ 32 := by
  calc Nat.ofDigits 16 ds < 16 ^ ds.length := Nat.ofDigits_lt_base_pow_length (by decide) hds
    _ ≤ 16 ^ 8 := Nat.pow_le_pow_right (by decide) hlen
    _ = 2 ^ 32 := by decide

theorem hexDigitVals_lt (w : List UInt8) : ∀ d ∈ w.map hexDigitVal, d < 16 := by
  intro d hd
  obtain ⟨c, -, rfl⟩ := List.mem_map.1 hd
  exact hexDigitVal_lt c

/-- What `str_parse_hex` accepts: a field of digits that fit, read as their value from the wrong
    end. -/
theorem hexLoop_zero_iff {w rest : List UInt8} {n : Nat} :
    hexLoop (w ++ rest) w.length 0 0 = .ok (0, n) ↔
      (∀ c ∈ w, isHexDigit c = true) ∧ FitsInt (w.map hexDigitVal) ∧
        n = Nat.ofDigits 16 (w.map hexDigitVal) := by
  have hvalue : (∀ c ∈ w, isHexDigit c = true) → FitsInt (w.map hexDigitVal) →
      hexLoop (w ++ rest) w.length 0 0 = .ok (0, Nat.ofDigits 16 (w.map hexDigitVal)) := by
    intro hall hfits
    have hlt := ofDigits_lt_size (hexDigitVals_lt w) hfits.1
    have hmod : sizeMod = 2 ^ 64 := rfl
    have hrun := @hexLoop_value w rest hall 0 0
      ((fitsAt_zero (hexDigitVals_lt w)).2 hfits) (by omega)
    rwa [Nat.mul_zero, Nat.pow_zero, Nat.one_mul, Nat.zero_add] at hrun
  constructor
  · intro h
    have hall := hexLoop_zero h
    rw [List.take_left] at hall
    have hfits : FitsInt (w.map hexDigitVal) := by
      by_contra hnot
      have hlead : leadingDigits ((w ++ rest).take w.length) = w.map hexDigitVal := by
        rw [List.take_left, leadingDigits, List.takeWhile_eq_self_iff.2 hall]
      have herr := (@hexLoop_error_iff (w ++ rest) w.length (by simp) 0 0).2
        (by rwa [hlead, fitsAt_zero (hexDigitVals_lt w)])
      rw [Nat.mul_zero, h] at herr
      cases herr
    refine ⟨hall, hfits, ?_⟩
    rw [hvalue hall hfits] at h
    exact (Prod.mk.inj (Except.ok.inj h)).2.symm
  · rintro ⟨hall, hfits, rfl⟩
    exact hvalue hall hfits

end Ryze
