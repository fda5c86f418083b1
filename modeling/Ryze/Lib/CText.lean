import Ryze.Lib.CBlock

set_option autoImplicit false

/-! # Searching, numbers and formats

Where `strstr` finds its needle, and the parts of the C library that turn text into numbers and
arguments into text: `strtol` in base 10 with the two functions defined by it, and `sprintf` with
`%s` as its only conversion. `strtol` stops at the largest `long` and the smallest one, as the
library documents. -/

namespace CLib

/-! ## `strstr` -/

/-- Bytes that cannot start the needle are passed over. -/
theorem strstr_skip {d : UInt8} {needle a : List UInt8} (ha : d ∉ a) (s : List UInt8) (i : Nat) :
    strstr (d :: needle) (a ++ s) i = strstr (d :: needle) s (i + a.length) := by
  induction a generalizing i with
  | nil => rfl
  | cons c a ih =>
      obtain ⟨hc, hrest⟩ := not_or.1 (List.mem_cons.not.1 ha)
      have hpre : (d :: needle).isPrefixOf (c :: (a ++ s)) = false := by
        simp [List.isPrefixOf, hc]
      rw [List.cons_append, strstr, hpre, if_neg (by simp), ih hrest, List.length_cons]
      congr 1
      omega

theorem strstr_here {needle s : List UInt8} (h : needle <+: s) (i : Nat) :
    strstr needle s i = some i := by
  cases s with
  | nil => rw [strstr, if_pos (List.prefix_nil.1 h)]
  | cons c s => rw [strstr, if_pos (List.isPrefixOf_iff_prefix.2 h)]

/-- Behind bytes that cannot start it the needle is found. -/
theorem strstr_found {d : UInt8} {needle a : List UInt8} (ha : d ∉ a) (b : List UInt8) (i : Nat) :
    strstr (d :: needle) (a ++ (d :: needle ++ b)) i = some (i + a.length) := by
  rw [strstr_skip ha, strstr_here (List.prefix_append ..)]

theorem strstr_byte_found {c : UInt8} {a : List UInt8} (ha : c ∉ a) (b : List UInt8) (i : Nat) :
    strstr [c] (a ++ c :: b) i = some (i + a.length) :=
  strstr_found ha b i

/-- The first place where the needle stands. -/
theorem strstr_first {needle s : List UInt8} {j : Nat} (hne : needle ≠ []) (h : needle <+: s.drop j)
    (hfirst : ∀ i < j, ¬ needle <+: s.drop i) (k : Nat) : strstr needle s k = some (k + j) := by
  induction s generalizing j k with
  | nil =>
      rw [List.drop_nil] at h
      exact absurd (List.prefix_nil.1 h) hne
  | cons c s ih =>
      cases j with
      | zero => exact strstr_here h k
      | succ j =>
          have hnot : ¬ needle.isPrefixOf (c :: s) := fun hp =>
            hfirst 0 (Nat.succ_pos j) (List.isPrefixOf_iff_prefix.1 hp)
          rw [strstr, if_neg hnot, ih h fun i hi => hfirst (i + 1) (Nat.succ_lt_succ hi)]
          congr 1
          omega

theorem strstr_none {needle s : List UInt8} (hne : needle ≠ []) (h : ∀ i, ¬ needle <+: s.drop i)
    (k : Nat) : strstr needle s k = none := by
  induction s generalizing k with
  | nil => rw [strstr, if_neg hne]
  | cons c s ih =>
      have hnot : ¬ needle.isPrefixOf (c :: s) := fun hp => h 0 (List.isPrefixOf_iff_prefix.1 hp)
      rw [strstr, if_neg hnot, ih fun i => h (i + 1)]

/-- What `strstr` finds is the first place where the needle stands. -/
theorem strstr_cases {needle : List UInt8} (hne : needle ≠ []) (s : List UInt8) (k : Nat) :
    (∃ j, strstr needle s k = some (k + j) ∧ needle <+: s.drop j ∧
      ∀ i < j, ¬ needle <+: s.drop i) ∨
    (strstr needle s k = none ∧ ∀ i, ¬ needle <+: s.drop i) := by
  induction s generalizing k with
  | nil =>
      have hnot : ∀ i, ¬ needle <+: ([] : List UInt8).drop i := fun i h => by
        rw [List.drop_nil] at h
        exact hne (List.prefix_nil.1 h)
      exact Or.inr ⟨strstr_none hne hnot k, hnot⟩
  | cons c s ih =>
      by_cases hhere : needle <+: c :: s
      · exact Or.inl ⟨0, strstr_here hhere k, hhere, fun i hi => absurd hi (Nat.not_lt_zero i)⟩
      · rcases ih (k + 1) with ⟨j, -, hj, hfirst⟩ | ⟨-, hnone⟩
        · have hfirst' : ∀ i < j + 1, ¬ needle <+: (c :: s).drop i := by
            intro i hi
            cases i with
            | zero => exact hhere
            | succ i => exact hfirst i (Nat.lt_of_succ_lt_succ hi)
          exact Or.inl ⟨j + 1, @strstr_first needle (c :: s) (j + 1) hne hj hfirst' k, hj, hfirst'⟩
        · have hnone' : ∀ i, ¬ needle <+: (c :: s).drop i := by
            intro i
            cases i with
            | zero => exact hhere
            | succ i => exact hnone i
          exact Or.inr ⟨strstr_none hne hnone' k, hnone'⟩

theorem strstr_byte_none {c : UInt8} {s : List UInt8} (hc : c ∉ s) (i : Nat) :
    strstr [c] s i = none := by
  induction s generalizing i with
  | nil => rw [strstr, if_neg (by simp)]
  | cons d s ih =>
      obtain ⟨hd, hrest⟩ := not_or.1 (List.mem_cons.not.1 hc)
      have hpre : [c].isPrefixOf (d :: s) = false := by
        simp [List.isPrefixOf, hd]
      rw [strstr, hpre, if_neg (by simp), ih hrest]

/-- A one-byte needle is found where it first stands. -/
theorem strstr_byte_cases (c : UInt8) (s : List UInt8) (i : Nat) :
    (c ∉ s ∧ strstr [c] s i = none) ∨
      ∃ a b, s = a ++ c :: b ∧ c ∉ a ∧ strstr [c] s i = some (i + a.length) := by
  by_cases hc : c ∈ s
  · obtain ⟨a, b, rfl, ha⟩ := List.eq_append_cons_of_mem hc
    exact Or.inr ⟨a, b, rfl, ha, strstr_byte_found ha b i⟩
  · exact Or.inl ⟨hc, strstr_byte_none hc i⟩

theorem strstr_byte_lt {c : UInt8} {s : List UInt8} {i j : Nat} (h : strstr [c] s i = some j) :
    j < i + s.length := by
  rcases strstr_byte_cases c s i with ⟨-, hnone⟩ | ⟨a, b, rfl, -, hsome⟩
  · rw [hnone] at h
    cases h
  · rw [hsome] at h
    cases h
    rw [List.length_append, List.length_cons]
    omega

/-! ## `strtol` -/

abbrev longMax : Int := 2 ^ 63 - 1

abbrev longMin : Int := -2 ^ 63

def isSpace (c : UInt8) : Bool := c == SP || (9 ≤ c && c ≤ 13)

def isDigit (c : UInt8) : Bool := 48 ≤ c && c ≤ 57

/-- The number the digits at the front stand for, read on from `v`. -/
def digitRun : List UInt8 → Nat → Nat
  | [], v => v
  | c :: s, v => if isDigit c then digitRun s (10 * v + (c.toNat - 48)) else v

/-- `strtol(s, NULL, 10)`. -/
def strtol (s : List UInt8) : Int :=
  match s.dropWhile isSpace with
  | [] => 0
  | c :: t =>
    if c = 45 then max longMin (-(digitRun t 0 : Int))
    else if c = 43 then min longMax (digitRun t 0)
    else min longMax (digitRun (c :: t) 0)

def atol (s : List UInt8) : Int := strtol s

def atoi (s : List UInt8) : Int := toInt32 (strtol s)

/-- The value of a decimal numeral. -/
def decimal (ds : List UInt8) : Nat := digitRun ds 0

/-- `strtol` on a numeral. -/
theorem strtol_decimal {ds : List UInt8} (hne : ds ≠ []) (hds : ∀ c ∈ ds, isDigit c = true) :
    strtol ds = min longMax (decimal ds) := by
  obtain ⟨c, t, rfl⟩ := List.exists_cons_of_ne_nil hne
  have hc : isDigit c = true := hds c (List.mem_cons_self ..)
  have hspace : isSpace c = false := by
    simp only [isDigit, isSpace, Bool.and_eq_true, decide_eq_true_eq, Bool.or_eq_false_iff,
      beq_eq_false_iff_ne, Bool.and_eq_false_iff, decide_eq_false_iff_not] at hc ⊢
    refine ⟨?_, Or.inr ?_⟩
    · rintro rfl
      exact absurd hc.1 (by decide)
    · intro hle
      exact absurd (UInt8.le_trans hc.1 hle) (by decide)
  have hsign : c ≠ 45 ∧ c ≠ 43 := by
    constructor
    · rintro rfl
      exact absurd hc (by decide)
    · rintro rfl
      exact absurd hc (by decide)
  rw [strtol, List.dropWhile_cons_of_neg (by simp [hspace])]
  simp only [if_neg hsign.1, if_neg hsign.2, decimal]

/-! ## `sprintf` -/

abbrev percent : UInt8 := 37

/-- What `sprintf(…, fmt, args…)` writes: every `%s` is the next argument. A text of more than
    `INT_MAX` bytes, for which the library reports an error, is written here as any other. -/
def sprintf : List UInt8 → List (List UInt8) → List UInt8
  | [], _ => []
  | [c], _ => [c]
  | c :: d :: fmt, [] => c :: sprintf (d :: fmt) []
  | c :: d :: fmt, a :: args =>
    if c = percent ∧ d = 115 then a ++ sprintf fmt args else c :: sprintf (d :: fmt) (a :: args)

theorem sprintf_cons_ne {c : UInt8} (hc : c ≠ percent) (fmt : List UInt8)
    (args : List (List UInt8)) : sprintf (c :: fmt) args = c :: sprintf fmt args := by
  cases fmt with
  | nil => cases args <;> rfl
  | cons d fmt =>
      cases args with
      | nil => rfl
      | cons a args => rw [sprintf, if_neg fun h => hc h.1]

theorem sprintf_literal {w : List UInt8} (hw : percent ∉ w) (fmt : List UInt8)
    (args : List (List UInt8)) : sprintf (w ++ fmt) args = w ++ sprintf fmt args := by
  induction w with
  | nil => rfl
  | cons c w ih =>
      obtain ⟨hc, hrest⟩ := not_or.1 (List.mem_cons.not.1 hw)
      rw [List.cons_append, sprintf_cons_ne (Ne.symm hc), ih hrest, List.cons_append]

theorem sprintf_string (fmt a : List UInt8) (args : List (List UInt8)) :
    sprintf (bytes "%s" ++ fmt) (a :: args) = a ++ sprintf fmt args := by
  change sprintf (percent :: 115 :: fmt) (a :: args) = _
  rw [sprintf, if_pos ⟨rfl, rfl⟩]

end CLib
