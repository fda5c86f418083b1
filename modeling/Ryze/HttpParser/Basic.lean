import Ryze.Lib.CBuffer

set_option autoImplicit false

/-! # The character table and the line scan of `http_parser.c`

Pieces `http_parse_request_line` and `http_parse_header` share: `token_char_map`, the loop that looks
for CR LF, and the comparison of a run of bytes with a literal. A loop over a pointer `p` is a
recursion over the memory from `p` on, with the offset of `p` beside it. -/

namespace Ryze

open CLib

/-! ## `token_char_map` -/

/-- `token_char_map`, 32 entries a row. -/
def tokenCharMap : List UInt8 :=
  List.replicate 32 0 ++
  [0, 1, 0, 1, 1, 1, 1, 1, 0, 0, 1, 1, 0, 1, 1, 0, 1, 1, 1, 1, 1, 1, 1, 1, 1, 1, 0, 0, 0, 0, 0, 0] ++
  [0, 1, 1, 1, 1, 1, 1, 1, 1, 1, 1, 1, 1, 1, 1, 1, 1, 1, 1, 1, 1, 1, 1, 1, 1, 1, 1, 0, 0, 0, 1, 1] ++
  [1, 1, 1, 1, 1, 1, 1, 1, 1, 1, 1, 1, 1, 1, 1, 1, 1, 1, 1, 1, 1, 1, 1, 1, 1, 1, 1, 0, 1, 0, 1, 0] ++
  List.replicate 128 0

/-- `token_char_map[(unsigned char) c]` as a condition. -/
def isTokenChar (c : UInt8) : Bool := tokenCharMap.getD c.toNat 0 != 0

/-- `c == ' ' || c == '\t'`. -/
def isBlank (c : UInt8) : Bool := c == SP || c == HT

abbrev colon : UInt8 := 58

theorem isTokenChar_colon : isTokenChar colon = false := by decide

theorem not_blank_of_token {c : UInt8} (h : isTokenChar c = true) : isBlank c = false := by
  by_contra hb
  simp only [isBlank, Bool.not_eq_false, Bool.or_eq_true, beq_iff_eq] at hb
  rcases hb with rfl | rfl
  · exact absurd h (by decide)
  · exact absurd h (by decide)

theorem ne_cr_of_token {c : UInt8} (h : isTokenChar c = true) : c ≠ CR := by
  rintro rfl
  exact absurd h (by decide)

theorem ne_cr_of_blank {c : UInt8} (h : isBlank c = true) : c ≠ CR := by
  rintro rfl
  exact absurd h (by decide)

/-! ## The scan for CR LF -/

/-- `for(; p != end; p++) if(*p == '\r' && ++p != end && *p == '\n') …`: the offset of the LF, or
    `none` when the scan meets `end`. A CR in the last byte makes the loop's own `p++` step over
    `end`, so the next `*p` reads outside the buffer. -/
def crlfLoop : List UInt8 → Nat → CRun (Option Nat)
  | [], _ => .ok none
  | c :: ds, p =>
    if c = CR then
      match ds with
      | [] => .error .read
      | c' :: ds' => if c' = LF then .ok (some (p + 1)) else crlfLoop ds' (p + 2)
    else crlfLoop ds (p + 1)

theorem crlfLoop_ne {c : UInt8} (hc : c ≠ CR) (ds : List UInt8) (p : Nat) :
    crlfLoop (c :: ds) p = crlfLoop ds (p + 1) := by
  cases ds <;> simp [crlfLoop, hc]

theorem crlfLoop_cr (c : UInt8) (ds : List UInt8) (p : Nat) :
    crlfLoop (CR :: c :: ds) p =
      if c = LF then .ok (some (p + 1)) else crlfLoop ds (p + 2) := by
  simp [crlfLoop]

/-- The scan walks over bytes that are not CR. -/
theorem crlfLoop_skip (w rest : List UInt8) (hw : ∀ c ∈ w, c ≠ CR) (p : Nat) :
    crlfLoop (w ++ rest) p = crlfLoop rest (p + w.length) := by
  induction w generalizing p with
  | nil => rfl
  | cons c w ih =>
      rw [List.cons_append, crlfLoop_ne (hw c (List.mem_cons_self ..)),
        ih (fun d hd => hw d (List.mem_cons_of_mem _ hd)), List.length_cons]
      congr 1
      omega

/-- The scan stops behind any run of bytes without CR that CR LF follows. -/
theorem crlfLoop_of_line (line rest : List UInt8) (hline : ∀ c ∈ line, c ≠ CR) (p : Nat) :
    crlfLoop (line ++ CR :: LF :: rest) p = .ok (some (p + line.length + 1)) := by
  rw [crlfLoop_skip _ _ hline, crlfLoop_cr, if_pos rfl]

/-- Where the scan found a LF there is one, with a CR before it. -/
theorem crlfLoop_found {ds : List UInt8} {p t : Nat} (h : crlfLoop ds p = .ok (some t)) :
    ∃ line rest, ds = line ++ CR :: LF :: rest ∧ t = p + line.length + 1 := by
  fun_induction crlfLoop ds p with
  | case1 p => simp at h
  | case2 p => simp at h
  | case3 p ds' => exact ⟨[], ds', rfl, by simpa using h.symm⟩
  | case4 p c' ds' _ ih =>
      obtain ⟨line, rest, rfl, rfl⟩ := ih h
      exact ⟨CR :: c' :: line, rest, rfl, by simp only [List.length_cons]; omega⟩
  | case5 c ds p _ ih =>
      obtain ⟨line, rest, rfl, rfl⟩ := ih h
      exact ⟨c :: line, rest, rfl, by simp only [List.length_cons]; omega⟩

/-- More bytes behind a LF the scan found do not move it. -/
theorem crlfLoop_append {ds : List UInt8} {p t : Nat} (h : crlfLoop ds p = .ok (some t))
    (s : List UInt8) : crlfLoop (ds ++ s) p = .ok (some t) := by
  fun_induction crlfLoop ds p with
  | case1 p => simp at h
  | case2 p => simp at h
  | case3 p ds' => rwa [List.cons_append, List.cons_append, crlfLoop_cr, if_pos rfl]
  | case4 p c' ds' hc' ih =>
      rw [List.cons_append, List.cons_append, crlfLoop_cr, if_neg hc']
      exact ih h
  | case5 c ds p hc ih =>
      rw [List.cons_append, crlfLoop_ne hc]
      exact ih h

/-! ## Comparison with a literal -/

/-- `*p == l[0] && *++p == l[1] && …`, stopping at the first difference. -/
def matchesAt (data : List UInt8) : List UInt8 → Nat → CRun Bool
  | [], _ => .ok true
  | l :: ls, p => do
    let c ← load data p
    if c = l then matchesAt data ls (p + 1) else return false

theorem matchesAt_of_drop (data : List UInt8) (ls rest : List UInt8) (p : Nat)
    (h : data.drop p = ls ++ rest) : matchesAt data ls p = .ok true := by
  induction ls generalizing p with
  | nil => rfl
  | cons l ls ih =>
      have hl : load data p = .ok l := load_of_drop h
      have hrest : data.drop (p + 1) = ls ++ rest := by
        rw [← List.drop_drop, h]
        rfl
      simp [matchesAt, hl, ih (p + 1) hrest]

/-- A comparison with a literal no longer than the rest of the buffer stays inside it. -/
theorem matchesAt_inBounds {data ls : List UInt8} {p : Nat} (h : p + ls.length ≤ data.length) :
    ∃ b, matchesAt data ls p = .ok b := by
  induction ls generalizing p with
  | nil => exact ⟨true, rfl⟩
  | cons l ls ih =>
      rw [List.length_cons] at h
      obtain ⟨c, hc⟩ : ∃ c, load data p = .ok c :=
        ⟨data[p], load_eq_ok.2 (List.getElem?_eq_getElem (by omega))⟩
      simp only [matchesAt, hc, ok_bind]
      split
      · exact ih (by omega)
      · exact ⟨false, rfl⟩

theorem matchesAt_append {data ls : List UInt8} {p : Nat} {b : Bool}
    (h : matchesAt data ls p = .ok b) (s : List UInt8) : matchesAt (data ++ s) ls p = .ok b := by
  induction ls generalizing p with
  | nil => simpa [matchesAt] using h
  | cons l ls ih =>
      simp only [matchesAt] at h ⊢
      obtain ⟨c, hc, hrest⟩ := bind_eq_ok.1 h
      rw [load_append_left hc s, ok_bind]
      split
      · next hcl =>
          rw [if_pos hcl] at hrest
          exact ih hrest
      · next hcl =>
          rw [if_neg hcl] at hrest
          exact hrest

end Ryze
