import Mathlib.Data.List.GetD
import Mathlib.Data.List.TakeWhile

set_option autoImplicit false

/-! # Memory that reads as zero

A block whose size is not looked at: the list of the cells written so far, with zeros wherever the
list ends. What matters is the memory up to its zeros at the end (`Holds`), and writing behind the
known bytes, or a zero anywhere behind them, keeps them known. -/

namespace ZeroMemory

variable {α : Type} [Zero α]

/-- The memory `m` after `bs` was written at `off`. -/
def write (m : List α) (off : Nat) (bs : List α) : List α :=
  m.take off ++ List.replicate (off - m.length) 0 ++ bs ++ m.drop (off + bs.length)

/-- The `n` cells from `off` on. -/
def read (m : List α) (off n : Nat) : List α :=
  (m.drop off).take n ++ List.replicate (n - (m.length - off)) 0

/-- The cells up to the first zero. -/
def string [DecidableEq α] (m : List α) : List α := m.takeWhile (· ≠ 0)

/-- `m` is `w` and zeros. -/
def Holds (m w : List α) : Prop := ∃ z, m = w ++ List.replicate z 0

variable {m w bs : List α} {i n : Nat}

theorem holds_nil : Holds ([] : List α) [] := ⟨0, rfl⟩

/-- Bytes written behind the known ones become known. -/
theorem Holds.append (h : Holds m w) (bs : List α) : Holds (write m w.length bs) (w ++ bs) := by
  obtain ⟨z, rfl⟩ := h
  refine ⟨z - bs.length, ?_⟩
  have hlen : w.length - (w ++ List.replicate z (0 : α)).length = 0 := by
    rw [List.length_append]
    omega
  rw [write, List.take_left, hlen, List.replicate_zero, List.append_nil, ← List.drop_drop,
    List.drop_left, List.drop_replicate]

/-- A zero written behind the known bytes changes nothing. -/
theorem Holds.zero (h : Holds m w) (hi : w.length ≤ i) : Holds (write m i [0]) w := by
  obtain ⟨z, rfl⟩ := h
  refine ⟨i - w.length + 1 + (z - (i - w.length + 1)), ?_⟩
  rw [write, List.take_append, List.take_of_length_le hi, List.take_replicate, List.drop_append,
    List.drop_eq_nil_of_le (by rw [List.length_singleton]; omega), List.drop_replicate,
    List.length_append, List.length_replicate, List.length_singleton, List.nil_append,
    List.append_assoc, List.append_assoc, List.append_assoc]
  congr 1
  rw [show [(0 : α)] = List.replicate 1 0 from rfl, List.replicate_append_replicate,
    List.replicate_append_replicate, List.replicate_append_replicate]
  congr 1
  omega

/-- A write inside the known bytes. -/
theorem Holds.set (h : Holds m w) (hi : i < w.length) (c : α) :
    Holds (write m i [c]) (w.take i ++ c :: w.drop (i + 1)) := by
  obtain ⟨z, rfl⟩ := h
  refine ⟨z, ?_⟩
  have hlen : i - (w ++ List.replicate z (0 : α)).length = 0 := by
    rw [List.length_append]
    omega
  rw [write, hlen, List.replicate_zero, List.append_nil, List.take_append_of_le_length (by omega),
    List.length_singleton, List.drop_append_of_le_length (by omega)]
  simp

theorem Holds.read (h : Holds m w) (hin : i + n ≤ w.length) :
    read m i n = (w.drop i).take n := by
  obtain ⟨z, rfl⟩ := h
  have hlen : n - ((w ++ List.replicate z (0 : α)).length - i) = 0 := by
    rw [List.length_append]
    omega
  rw [ZeroMemory.read, hlen, List.replicate_zero, List.append_nil,
    List.drop_append_of_le_length (by omega),
    List.take_append_of_le_length (by rw [List.length_drop]; omega)]

theorem read_getElem? (m : List α) {off n i : Nat} (hi : i < n) :
    (read m off n)[i]? = some (m.getD (off + i) 0) := by
  rw [List.getD_eq_getElem?_getD, ZeroMemory.read]
  by_cases hlt : off + i < m.length
  · rw [List.getElem?_append_left (by rw [List.length_take, List.length_drop]; omega),
      List.getElem?_take_of_lt hi, List.getElem?_drop, List.getElem?_eq_getElem hlt]
    rfl
  · rw [List.getElem?_append_right (by rw [List.length_take, List.length_drop]; omega),
      List.getElem?_replicate_of_lt (by rw [List.length_take, List.length_drop]; omega),
      List.getElem?_eq_none (by omega)]
    rfl

theorem read_length (m : List α) (off n : Nat) : (read m off n).length = n := by
  rw [ZeroMemory.read, List.length_append, List.length_take, List.length_drop,
    List.length_replicate]
  omega

/-- Behind the known bytes there are zeros. -/
theorem Holds.getD (h : Holds m w) (i : Nat) : m.getD i 0 = w.getD i 0 := by
  obtain ⟨z, rfl⟩ := h
  by_cases hi : i < w.length
  · rw [List.getD_append _ _ _ _ hi]
  · rw [List.getD_append_right _ _ _ _ (by omega), List.getD_eq_default w _ (by omega),
      List.getD_eq_getElem?_getD, List.getElem?_getD_replicate_default_eq]

/-- The known bytes and the zero behind them. -/
theorem Holds.read_end (h : Holds m w) : ZeroMemory.read m 0 (w.length + 1) = w ++ [0] := by
  refine List.ext_getElem? fun i => ?_
  by_cases hi : i < w.length + 1
  · rw [read_getElem? m hi, Nat.zero_add, h.getD, List.getD_eq_getElem?_getD]
    by_cases hlt : i < w.length
    · rw [List.getElem?_append_left hlt, List.getElem?_eq_getElem hlt]
      rfl
    · obtain rfl : i = w.length := by omega
      simp
  · rw [List.getElem?_eq_none (by rw [read_length]; omega),
      List.getElem?_eq_none (by rw [List.length_append, List.length_singleton]; omega)]

theorem Holds.string_eq [DecidableEq α] (h : Holds m w) : string m = string w := by
  obtain ⟨z, rfl⟩ := h
  induction w with
  | nil =>
      cases z with
      | zero => rfl
      | succ z => simp [string, List.replicate_succ]
  | cons c w ih =>
      rw [string, string, List.cons_append, List.takeWhile_cons, List.takeWhile_cons]
      split
      · exact congrArg (c :: ·) ih
      · rfl

theorem string_of_notMem [DecidableEq α] (hw : 0 ∉ w) : string w = w := by
  refine List.takeWhile_eq_self_iff.2 ?_
  intro c hc
  exact decide_eq_true fun h => hw (h ▸ hc)

theorem string_append [DecidableEq α] (hw : 0 ∉ w) (s : List α) :
    string (w ++ s) = w ++ string s := by
  refine List.takeWhile_append_of_pos ?_
  intro c hc
  exact decide_eq_true fun h => hw (h ▸ hc)

/-- A string ends at its zero. -/
theorem string_append_zero [DecidableEq α] (hw : 0 ∉ w) (s : List α) : string (w ++ 0 :: s) = w := by
  rw [string_append hw]
  simp [string]

end ZeroMemory
