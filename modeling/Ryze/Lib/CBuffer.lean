import Ryze.Lib.CRun
import Mathlib.Algebra.Group.Int.Defs
import Mathlib.Algebra.Group.Nat.Defs
import Mathlib.Data.List.Basic

set_option autoImplicit false

/-! # Buffers of initialised bytes

A buffer handed to a parser is the list of its bytes; positions in it are offsets from its start,
and the memory from a pointer on is the list with that many bytes dropped. Every access is checked
against the list, so a run that returns stayed inside the buffer. -/

namespace CLib

/-! ## Bytes with a name -/

abbrev HT : UInt8 := 9
abbrev LF : UInt8 := 10
abbrev CR : UInt8 := 13
abbrev SP : UInt8 := 32

/-- The bytes of an ASCII literal. -/
def bytes (s : String) : List UInt8 := s.toList.map Char.toUInt8

/-! ## Machine integers -/

/-- One more than `SIZE_MAX`. -/
abbrev sizeMod : Nat := 2 ^ 64

/-- The largest object: pointer differences are signed 64-bit. -/
abbrev ptrdiffMax : Nat := 2 ^ 63 - 1

/-- `a + b` in `size_t`. -/
def sizeAdd (a b : Nat) : Nat := (a + b) % sizeMod

/-- `a - b` in `size_t`. -/
def sizeSub (a b : Nat) : Nat := (a + (sizeMod - b % sizeMod)) % sizeMod

/-- The conversion of a `long` to `size_t`. -/
def toSize (x : Int) : Nat := (x % 2 ^ 64).toNat

/-- The difference of two pointers into one object, converted to `size_t`. -/
def ptrDiff (a b : Nat) : Nat := if b ≤ a then a - b else sizeMod - (b - a)

/-- The conversion of a pointer difference to `int`. -/
def toInt32 (x : Int) : Int := Int.bmod x (2 ^ 32)

/-- The largest `int`. -/
abbrev intMax : Nat := 2 ^ 31 - 1

/-- A plain `char` is signed. -/
def schar (c : UInt8) : Int := if c.toNat < 128 then c.toNat else (c.toNat : Int) - 256

theorem sizeAdd_le (a b : Nat) : sizeAdd a b ≤ a + b := by
  unfold sizeAdd
  exact Nat.mod_le _ _

theorem sizeAdd_of_lt {a b : Nat} (h : a + b < sizeMod) : sizeAdd a b = a + b := by
  unfold sizeAdd
  exact Nat.mod_eq_of_lt h

theorem sizeSub_of_le {a b : Nat} (hb : b ≤ a) (ha : a < sizeMod) : sizeSub a b = a - b := by
  unfold sizeSub sizeMod at *
  omega

theorem toSize_of_nat {n : Nat} (h : n < sizeMod) : toSize n = n := by
  unfold toSize sizeMod at *
  omega

theorem ptrDiff_of_le {a b : Nat} (h : b ≤ a) : ptrDiff a b = a - b := if_pos h

theorem toInt32_of_lt {n : Nat} (h : n < 2 ^ 31) : toInt32 n = n := by
  unfold toInt32
  exact Int.bmod_eq_of_le (by omega) (by omega)

/-- What a conversion to `int` takes away is a multiple of `2 ^ 32`, and the result is an `int`. -/
theorem toInt32_spec (x : Int) : ∃ k : Int, toInt32 x = x - 4294967296 * k ∧
    -2147483648 ≤ toInt32 x ∧ toInt32 x < 2147483648 := by
  unfold toInt32
  rw [Int.bmod_def]
  split
  · exact ⟨x / 4294967296, by omega, by omega, by omega⟩
  · exact ⟨x / 4294967296 + 1, by omega, by omega, by omega⟩

theorem toInt32_le (n : Nat) : toInt32 n ≤ n := by
  obtain ⟨k, hk, hlo, hhi⟩ := toInt32_spec n
  omega

theorem toInt32_toNat_le (n : Nat) : (toInt32 n).toNat ≤ n := by
  unfold toInt32
  rw [Int.bmod_def]
  split <;> omega

/-- Only the places that are below `2 ^ 31` modulo `2 ^ 32` come out non-negative, as what they are
    modulo `2 ^ 32`. -/
theorem toInt32_nonneg_iff (n : Nat) : 0 ≤ toInt32 n ↔ n % 2 ^ 32 < 2 ^ 31 := by
  unfold toInt32
  rw [Int.bmod_def]
  split <;> omega

theorem toInt32_eq_mod {n : Nat} (h : n % 2 ^ 32 < 2 ^ 31) : toInt32 n = (n % 2 ^ 32 : Nat) := by
  unfold toInt32
  rw [Int.bmod_def]
  split <;> omega

/-- An `int` that is added to was converted too early. -/
theorem toInt32_add (x y : Int) : toInt32 (toInt32 x + y) = toInt32 (x + y) := by
  simp [toInt32]

theorem toInt32_add_right (x y : Int) : toInt32 (x + toInt32 y) = toInt32 (x + y) := by
  simp [toInt32]

theorem toInt32_le_of_nonneg {x : Int} (hx : 0 ≤ x) : toInt32 x ≤ x := by
  obtain ⟨n, rfl⟩ := Int.eq_ofNat_of_zero_le hx
  exact toInt32_le n

theorem toInt32_le_intMax (x : Int) : toInt32 x ≤ intMax := by
  obtain ⟨_, _, _, hlt⟩ := toInt32_spec x
  simp only [intMax]
  omega

/-! ## Reading -/

section Access

variable {α : Type}

/-- `m[i]`. -/
def load (m : List α) (i : Nat) : CRun α :=
  match m[i]? with
  | some c => .ok c
  | none => .error .read

theorem load_eq_ok {m : List α} {i : Nat} {c : α} : load m i = .ok c ↔ m[i]? = some c := by
  unfold load
  split
  · next d hd => simp [hd]
  · next hd => simp [hd]

theorem load_error {m : List α} {i : Nat} {e : Fault} (h : load m i = .error e) : e = .read := by
  unfold load at h
  split at h
  · cases h
  · exact (Except.error.inj h).symm

theorem load_append_left {m : List α} {i : Nat} {c : α} (h : load m i = .ok c) (s : List α) :
    load (m ++ s) i = .ok c := by
  rw [load_eq_ok] at h ⊢
  rw [List.getElem?_append_left (List.getElem?_eq_some_iff.1 h).1, h]

theorem load_of_drop {m rest : List α} {i : Nat} {c : α} (h : m.drop i = c :: rest) :
    load m i = .ok c := by
  rw [load_eq_ok, ← List.head?_drop, h, List.head?_cons]

theorem lt_length_of_drop {m rest : List α} {i : Nat} {c : α} (h : m.drop i = c :: rest) :
    i < m.length := by
  have hlen : (m.drop i).length = rest.length + 1 := by rw [h, List.length_cons]
  rw [List.length_drop] at hlen
  omega

/-- Dropping a known front of a memory leaves its known rest. -/
theorem drop_add_of_drop {m a b : List α} {off : Nat} (h : m.drop off = a ++ b) :
    m.drop (off + a.length) = b := by
  rw [← List.drop_drop, h, List.drop_left]

/-- A list is cut at its first `s` in one way only. -/
theorem append_cons_inj {x u y v : List α} {s : α} (hx : s ∉ x) (hu : s ∉ u) :
    x ++ s :: y = u ++ s :: v ↔ x = u ∧ y = v := by
  constructor
  · intro h
    induction x generalizing u with
    | nil =>
        cases u with
        | nil => exact ⟨rfl, (List.cons.inj h).2⟩
        | cons d u =>
            obtain ⟨rfl, -⟩ := List.cons.inj h
            exact absurd (List.mem_cons_self ..) hu
    | cons c x ih =>
        cases u with
        | nil =>
            obtain ⟨rfl, -⟩ := List.cons.inj h
            exact absurd (List.mem_cons_self ..) hx
        | cons d u =>
            obtain ⟨rfl, hrest⟩ := List.cons.inj h
            obtain ⟨rfl, rfl⟩ := ih (fun hs => hx (List.mem_cons_of_mem _ hs))
              (fun hs => hu (List.mem_cons_of_mem _ hs)) hrest
            exact ⟨rfl, rfl⟩
  · rintro ⟨rfl, rfl⟩
    rfl

/-- The `n` bytes from `off` on, if they all lie in the buffer. -/
def slice (m : List α) (off n : Nat) : Option (List α) :=
  if off + n ≤ m.length then some ((m.drop off).take n) else none

theorem slice_of_drop {m a b : List α} {off : Nat} (h : m.drop off = a ++ b)
    (hoff : off ≤ m.length) : slice m off a.length = some a := by
  have hlen : m.length - off = a.length + b.length := by
    rw [← List.length_drop, h, List.length_append]
  rw [slice, if_pos (by omega), h, List.take_left']
  rfl

/-! ## Moving -/

/-- `memmove(m + dst, m + src, n)`. -/
def memmove (m : List α) (dst src n : Nat) : CRun (List α) :=
  if src + n ≤ m.length then
    if dst + n ≤ m.length then
      .ok (m.take dst ++ (m.drop src).take n ++ m.drop (dst + n))
    else .error .write
  else .error .read

theorem memmove_eq_ok {m m' : List α} {dst src n : Nat} :
    memmove m dst src n = .ok m' ↔ src + n ≤ m.length ∧ dst + n ≤ m.length ∧
      m' = m.take dst ++ (m.drop src).take n ++ m.drop (dst + n) := by
  unfold memmove
  by_cases hs : src + n ≤ m.length
  · by_cases hd : dst + n ≤ m.length
    · simp [hs, hd, eq_comm]
    · simp [hs, hd]
  · simp [hs]

theorem memmove_error {m : List α} {dst src n : Nat} {e : Fault}
    (h : memmove m dst src n = .error e) : e = .read ∨ e = .write := by
  unfold memmove at h
  split at h
  · split at h
    · cases h
    · exact Or.inr (Except.error.inj h).symm
  · exact Or.inl (Except.error.inj h).symm

theorem memmove_length {m m' : List α} {dst src n : Nat} (h : memmove m dst src n = .ok m') :
    m'.length = m.length := by
  obtain ⟨hs, hd, rfl⟩ := memmove_eq_ok.1 h
  simp only [List.length_append, List.length_take, List.length_drop]
  omega

/-- Bytes after the destination are not touched. -/
theorem memmove_drop {m m' : List α} {dst src n : Nat} (h : memmove m dst src n = .ok m')
    {k : Nat} (hk : dst + n ≤ k) : m'.drop k = m.drop k := by
  obtain ⟨hs, hd, rfl⟩ := memmove_eq_ok.1 h
  have hfront : (m.take dst ++ (m.drop src).take n).length = dst + n := by
    simp only [List.length_append, List.length_take, List.length_drop]
    omega
  rw [List.drop_append, hfront, List.drop_eq_nil_of_le (by omega), List.nil_append, List.drop_drop]
  congr 1
  omega

/-- Bytes before the destination are not touched, and the moved bytes follow them. -/
theorem memmove_take {m m' : List α} {dst src n : Nat} (h : memmove m dst src n = .ok m') :
    m'.take (dst + n) = m.take dst ++ (m.drop src).take n := by
  obtain ⟨hs, hd, rfl⟩ := memmove_eq_ok.1 h
  refine List.take_left' ?_
  simp only [List.length_append, List.length_take, List.length_drop]
  omega

theorem memmove_drop_front {m m' : List α} {dst src n off : Nat} (h : memmove m dst src n = .ok m')
    (hoff : off ≤ dst) : m'.drop off
      = (m.drop off).take (dst - off) ++ ((m.drop src).take n ++ m.drop (dst + n)) := by
  obtain ⟨hs, hd, rfl⟩ := memmove_eq_ok.1 h
  rw [List.append_assoc, List.drop_append_of_le_length (by rw [List.length_take]; omega),
    List.drop_take]

/-- Bytes that end in front of the destination stay. -/
theorem memmove_frame {m m' a t : List α} {dst src n off : Nat} (h : memmove m dst src n = .ok m')
    (hdrop : m.drop off = a ++ t) (hoff : off + a.length ≤ dst) : ∃ t', m'.drop off = a ++ t' := by
  rw [memmove_drop_front h (by omega), hdrop, List.take_append,
    List.take_of_length_le (by omega), List.append_assoc]
  exact ⟨_, rfl⟩

/-- Bytes that end at the destination are continued with the moved ones. -/
theorem memmove_extend {m m' a b s t : List α} {dst src n off : Nat}
    (h : memmove m dst src n = .ok m') (hdrop : m.drop off = a ++ t) (hdst : dst = off + a.length)
    (hsrc : m.drop src = b ++ s) (hn : n = b.length) : ∃ t', m'.drop off = a ++ b ++ t' := by
  rw [memmove_drop_front h (by omega), hdrop, hsrc, hn, List.take_left,
    List.take_left' (by omega), ← List.append_assoc]
  exact ⟨_, rfl⟩

/-- Bytes after the buffer take no part in a move inside it. -/
theorem memmove_append {m m' : List α} {dst src n : Nat} (h : memmove m dst src n = .ok m')
    (s : List α) : memmove (m ++ s) dst src n = .ok (m' ++ s) := by
  obtain ⟨hs, hd, rfl⟩ := memmove_eq_ok.1 h
  refine memmove_eq_ok.2 ⟨?_, ?_, ?_⟩
  · rw [List.length_append]; omega
  · rw [List.length_append]; omega
  · rw [List.take_append_of_le_length (by omega), List.drop_append_of_le_length (by omega),
      List.drop_append_of_le_length (by omega),
      List.take_append_of_le_length (by rw [List.length_drop]; omega), ← List.append_assoc]

end Access

end CLib
