import Ryze.HttpParser.HeaderLines

set_option autoImplicit false

/-! # What one header line does

A line that starts with a blank is folded into the last stored header, any other one is stored if its
name is a token and there is room (`takeLine`). A stored value ends at `fin`, also when its length has
wrapped because the value is all blanks. -/

namespace Ryze

open CLib

/-! ## Storing a line -/

/-- `value + value_len`, where the value ends. -/
def HttpHeader.fin (h : HttpHeader) : Nat := sizeAdd h.value h.valueLen

/-- How many blanks a value starts with. -/
def leadingBlanks (v : List UInt8) : Nat := (v.takeWhile isBlank).length

/-- How long a value is without the blanks it ends with. -/
def trimmedLen (v : List UInt8) : Nat := (v.rdropWhile isBlank).length

/-- What a line at offset `p1` is stored as. A value of blanks only starts behind its end. -/
def RawLine.stored (p1 : Nat) (l : RawLine) : HttpHeader where
  name := p1
  nameLen := l.name.length
  value := p1 + l.name.length + 1 + leadingBlanks l.tail
  valueLen := ptrDiff (p1 + l.name.length + 1 + trimmedLen l.tail)
    (p1 + l.name.length + 1 + leadingBlanks l.tail)

theorem leadingBlanks_le (v : List UInt8) : leadingBlanks v ≤ v.length :=
  (List.takeWhile_prefix isBlank).length_le

theorem trimmedLen_le (v : List UInt8) : trimmedLen v ≤ v.length :=
  (List.rdropWhile_prefix (p := isBlank) v).length_le

theorem sizeAdd_ptrDiff {a b : Nat} (ha : a < sizeMod) (hb : b < sizeMod) :
    sizeAdd b (ptrDiff a b) = a := by
  unfold sizeAdd ptrDiff sizeMod at *
  split <;> omega

theorem skipBlanks_tail (v rest : List UInt8) (t : Nat) :
    skipBlanks (v ++ CR :: rest) t = .ok (t + leadingBlanks v) := by
  induction v generalizing t with
  | nil =>
      simp only [List.nil_append, leadingBlanks, List.takeWhile_nil, List.length_nil, Nat.add_zero]
      rw [skipBlanks, if_neg (by decide)]
  | cons c v ih =>
      rw [List.cons_append, skipBlanks, leadingBlanks]
      by_cases hc : isBlank c = true
      · rw [if_pos hc, ih, List.takeWhile_cons_of_pos hc, List.length_cons, leadingBlanks]
        congr 1
        omega
      · rw [if_neg hc, List.takeWhile_cons_of_neg hc]
        rfl

/-- Going back from the end of a line stops at the last byte that is no blank, at the colon if there
    is no other. -/
theorem skipBlanksBack_tail {data v rest : List UInt8} {p2 : Nat}
    (h : data.drop p2 = colon :: (v ++ rest)) :
    skipBlanksBack data (p2 + v.length) = .ok (p2 + trimmedLen v) := by
  have hsplit : v = v.rdropWhile isBlank ++ v.rtakeWhile isBlank :=
    (List.rdropWhile_append_rtakeWhile ..).symm
  have hlen : v.length = trimmedLen v + (v.rtakeWhile isBlank).length := by
    rw [trimmedLen, ← List.length_append, ← hsplit]
  have hblank : ∀ d ∈ v.rtakeWhile isBlank, isBlank d = true := fun d hd =>
    List.mem_rtakeWhile_imp hd
  rw [hlen, ← Nat.add_assoc]
  rcases List.eq_nil_or_concat' (v.rdropWhile isBlank) with hnil | ⟨u, c, hu⟩
  · have htrim : trimmedLen v = 0 := by rw [trimmedLen, hnil, List.length_nil]
    rw [htrim, Nat.add_zero]
    refine skipBlanksBack_run data (v.rtakeWhile isBlank) rest colon p2 ?_ hblank (by decide)
    rw [h, ← List.nil_append (v.rtakeWhile isBlank), ← hnil, ← hsplit]
  · have htrim : trimmedLen v = u.length + 1 := by
      rw [trimmedLen, hu, List.length_append, List.length_singleton]
    have hc : isBlank c = false := by
      have hlast := List.rdropWhile_last_not isBlank v (by rw [hu]; simp)
      simpa [hu] using hlast
    have hdrop : data.drop (p2 + (u.length + 1)) = c :: (v.rtakeWhile isBlank ++ rest) := by
      have hfront : data.drop p2 = (colon :: u) ++ (c :: (v.rtakeWhile isBlank ++ rest)) := by
        have hv : v ++ rest = u ++ c :: (v.rtakeWhile isBlank ++ rest) := by
          conv_lhs => rw [hsplit, hu]
          simp
        rw [h, hv]
        rfl
      have := drop_add_of_drop hfront
      rwa [List.length_cons] at this
    rw [htrim]
    exact skipBlanksBack_run data (v.rtakeWhile isBlank) rest c _ hdrop hblank hc

section Line

variable {data rest : List UInt8} {p1 : Nat} {l : RawLine}

/-- A line lies inside the buffer it begins. -/
theorem line_le (h : data.drop p1 = l.wire ++ rest) (hp1 : p1 ≤ data.length) :
    p1 + l.wire.length ≤ data.length := by
  have hlen := congrArg List.length h
  rw [List.length_drop, List.length_append] at hlen
  omega

theorem storeHeader_line (h : data.drop p1 = l.wire ++ rest) :
    storeHeader data p1 (p1 + l.name.length) (p1 + l.name.length + l.tail.length + 2)
      = .ok (l.stored p1) := by
  rw [RawLine.wire_append] at h
  have hcolon : data.drop (p1 + l.name.length) = colon :: (l.tail ++ CR :: LF :: rest) :=
    drop_add_of_drop h
  have hafter : data.drop (p1 + l.name.length + 1) = l.tail ++ CR :: LF :: rest := by
    rw [← List.drop_drop, hcolon]
    rfl
  rw [storeHeader, hafter, skipBlanks_tail, ok_bind,
    show p1 + l.name.length + l.tail.length + 2 - 2 = p1 + l.name.length + l.tail.length by omega,
    skipBlanksBack_tail hcolon, ok_bind, RawLine.stored]
  simp only [pure_eq_ok, Nat.add_sub_cancel_left, Except.ok.injEq, HttpHeader.mk.injEq, true_and]
  congr 1
  omega

/-! ## Folding a line -/

/-- How many bytes of a folded line are appended: all behind its first blank, if an `int` can count
    them. -/
def RawLine.foldedLen (l : RawLine) : Nat := (toInt32 (l.name.length + l.tail.length : Nat)).toNat

theorem RawLine.foldedLen_le (l : RawLine) : l.foldedLen ≤ l.name.length + l.tail.length :=
  toInt32_toNat_le _

theorem RawLine.foldedLen_lt (l : RawLine) : l.foldedLen < l.wire.length := by
  have hle := l.foldedLen_le
  have hlen := l.wire_length
  omega

/-- `value_len += n` for the last header. -/
def extendLast (headers : List HttpHeader) (n : Nat) : List HttpHeader :=
  match headers.getLast? with
  | none => headers
  | some h => headers.dropLast ++ [{ h with valueLen := sizeAdd h.valueLen n }]

/-- The headers after a line at offset `p1`; `added` says how many bytes of a folded line are
    appended. -/
def takeLine (added : RawLine → Nat) (maxHeader : Int) (headers : List HttpHeader) (p1 : Nat)
    (l : RawLine) : List HttpHeader :=
  if l.isFolded then if 0 < added l then extendLast headers (added l) else headers
  else if l.isToken ∧ (headers.length : Int) < maxHeader then headers ++ [l.stored p1]
  else headers

/-- `len` of a folded line. -/
theorem foldLine_len (l : RawLine) (p1 : Nat) :
    ((p1 + l.name.length + l.tail.length + 2 : Nat) : Int) - (p1 + 1 : Nat) - 1
      = (l.name.length + l.tail.length : Nat) := by
  omega

/-- What folding a line does: one move from behind the line's first blank to the end of the last
    value. -/
theorem foldLine_line {headers : List HttpHeader} {h : HttpHeader} (hlast : headers.getLast? = some h)
    (hdrop : data.drop p1 = l.wire ++ rest) (hp1 : p1 ≤ data.length) (hfin : h.fin ≤ p1) :
    ∃ data', foldLine data headers p1 (p1 + l.name.length + l.tail.length + 2)
        = .ok (data', if 0 < l.foldedLen then extendLast headers l.foldedLen else headers) ∧
      memmove data h.fin (p1 + 1) l.foldedLen = .ok data' := by
  have hle := line_le hdrop hp1
  have hlen := l.wire_length
  have hfold := l.foldedLen_le
  have hcast : (0 < toInt32 (l.name.length + l.tail.length : Nat)) ↔ 0 < l.foldedLen := by
    unfold RawLine.foldedLen
    omega
  obtain ⟨data', hmove⟩ : ∃ data', memmove data h.fin (p1 + 1) l.foldedLen = .ok data' :=
    ⟨_, memmove_eq_ok.2 ⟨by omega, by omega, rfl⟩⟩
  refine ⟨data', ?_, hmove⟩
  simp only [foldLine, hlast, foldLine_len]
  by_cases hpos : 0 < l.foldedLen
  · rw [HttpHeader.fin, RawLine.foldedLen] at hmove
    rw [if_pos (hcast.2 hpos), if_pos hpos, hmove, ok_bind, extendLast, hlast]
    rfl
  · have hsame : data' = data := by
      obtain ⟨_, _, rfl⟩ := memmove_eq_ok.1 hmove
      rw [show l.foldedLen = 0 by omega, List.take_zero, List.append_nil, Nat.add_zero,
        List.take_append_drop]
    rw [if_neg (fun h => hpos (hcast.1 h)), if_neg hpos, hsame]
    rfl

/-- The first byte of a line says whether it is folded. -/
theorem load_line (h : data.drop p1 = l.wire ++ rest) :
    ∃ c, load data p1 = .ok c ∧ isBlank c = l.isFolded := by
  rw [RawLine.wire_append] at h
  cases hname : l.name with
  | nil =>
      rw [hname, List.nil_append] at h
      refine ⟨colon, load_of_drop h, ?_⟩
      rw [RawLine.isFolded, hname]
      decide
  | cons c w =>
      rw [hname, List.cons_append] at h
      refine ⟨c, load_of_drop h, ?_⟩
      rw [RawLine.isFolded, hname]
      rfl

end Line

end Ryze
