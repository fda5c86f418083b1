import Ryze.Lib.CBuffer

set_option autoImplicit false

/-! # Allocated blocks and C strings

A block of memory that `malloc` gave out is a list of cells, `none` where nothing was written yet. A
C string is the run of bytes up to the first NUL, so it has no value where the run meets a cell
without one. Code that builds a block front to back is followed with `filled n w`: a block of `n`
cells of which the first ones hold `w`. -/

namespace CLib

section Cells

variable {α : Type}

/-- Cells that hold the values `s`. -/
def cells (s : List α) : List (Option α) := s.map some

@[simp] theorem cells_length (s : List α) : (cells s).length = s.length := List.length_map _

@[simp] theorem cells_append (s t : List α) : cells (s ++ t) = cells s ++ cells t := List.map_append

@[simp] theorem cells_cons (c : α) (s : List α) : cells (c :: s) = some c :: cells s := rfl

@[simp] theorem cells_nil : cells ([] : List α) = [] := rfl

/-- The value in a cell. -/
def loadCell (m : List (Option α)) (i : Nat) : CRun α :=
  match m[i]? with
  | some (some c) => .ok c
  | _ => .error .read

/-- `m[i] = c`. -/
def store (m : List (Option α)) (i : Int) (c : α) : CRun (List (Option α)) :=
  if 0 ≤ i ∧ i.toNat < m.length then .ok (m.set i.toNat (some c)) else .error .write

/-- `memcpy(m + dst, src, n)`, `src` being the memory from the source pointer on. -/
def memcpy (m : List (Option α)) (dst : Nat) (src : List (Option α)) (n : Nat) :
    CRun (List (Option α)) :=
  if n ≤ src.length then
    if dst + n ≤ m.length then .ok (m.take dst ++ src.take n ++ m.drop (dst + n))
    else .error .write
  else .error .read

/-- `memcpy(m + dst, src, n)`, `dst` being signed. -/
def memcpyAt (m : List (Option α)) (dst : Int) (src : List (Option α)) (n : Nat) :
    CRun (List (Option α)) :=
  if 0 ≤ dst then memcpy m dst.toNat src n else .error .write

/-- `malloc(n)`. A request larger than any object gives the null pointer, and its caller writes
    through it. -/
def malloc (n : Nat) : CRun (List (Option α)) :=
  if n ≤ ptrdiffMax then .ok (List.replicate n none) else .error .write

/-- `realloc(m, n)`. -/
def realloc (m : List (Option α)) (n : Nat) : CRun (List (Option α)) :=
  if n ≤ ptrdiffMax then .ok (m.take n ++ List.replicate (n - m.length) none) else .error .write

theorem store_append_cons (a b : List (Option α)) (x : Option α) (c : α) :
    store (a ++ x :: b) a.length c = .ok (a ++ some c :: b) := by
  rw [store, if_pos ⟨Int.natCast_nonneg _, by simp⟩, Int.toNat_natCast,
    List.set_append_right _ _ (Nat.le_refl _), Nat.sub_self, List.set_cons_zero]

end Cells

/-! ## Blocks that are filled front to back -/

section Filled

variable {α : Type}

/-- A block of `n` cells whose first ones hold `w`. -/
def filled (n : Nat) (w : List α) : List (Option α) :=
  cells w ++ List.replicate (n - w.length) none

theorem malloc_eq_filled {n : Nat} (h : n ≤ ptrdiffMax) :
    (malloc n : CRun (List (Option α))) = .ok (filled n []) := by
  rw [malloc, if_pos h]
  rfl

theorem filled_length {n : Nat} {w : List α} (h : w.length ≤ n) : (filled n w).length = n := by
  simp only [filled, List.length_append, cells_length, List.length_replicate]
  omega

/-- A full block. -/
theorem filled_full (w : List α) : filled w.length w = cells w := by
  simp [filled]

theorem store_filled {n : Nat} {w : List α} {i : Int} (hi : i = w.length) (c : α)
    (h : w.length < n) : store (filled n w) i c = .ok (filled n (w ++ [c])) := by
  have hlen := filled_length (Nat.le_of_lt h)
  subst hi
  rw [store, if_pos ⟨by omega, by rw [Int.toNat_natCast, hlen]; exact h⟩]
  obtain ⟨k, hk⟩ : ∃ k, n - w.length = k + 1 := ⟨n - w.length - 1, by omega⟩
  have hk' : n - (w ++ [c]).length = k := by
    rw [List.length_append, List.length_singleton]
    omega
  rw [filled, filled, hk, hk', Int.toNat_natCast, List.set_append_right _ _ (by simp)]
  simp [List.replicate_succ]

theorem memcpy_filled {n : Nat} {w : List α} {dst : Nat} (hdst : dst = w.length)
    (src : List (Option α)) (s : List α) {k : Nat} (hsrc : src.take k = cells s)
    (hk : k = s.length) (h : w.length + s.length ≤ n) :
    memcpy (filled n w) dst src k = .ok (filled n (w ++ s)) := by
  have hlen := filled_length (show w.length ≤ n by omega)
  have hsrclen : k ≤ src.length := by
    have htake := congrArg List.length hsrc
    rw [List.length_take, cells_length] at htake
    omega
  subst hdst
  rw [memcpy, if_pos hsrclen, if_pos (by omega), hsrc]
  have htake : (filled n w).take w.length = cells w := List.take_left' (cells_length w)
  have hdrop : (filled n w).drop (w.length + k) = List.replicate (n - (w ++ s).length) none := by
    rw [← List.drop_drop, filled, List.drop_left' (cells_length w), List.drop_replicate,
      List.length_append]
    congr 1
    omega
  rw [htake, hdrop, filled, cells_append]

/-- A block that grows keeps what it holds. -/
theorem realloc_filled {n m : Nat} {w : List α} (hw : w.length ≤ n) (hnm : n ≤ m)
    (hm : m ≤ ptrdiffMax) : realloc (filled n w) m = .ok (filled m w) := by
  have hlen := filled_length hw
  rw [realloc, if_pos hm, List.take_of_length_le (by omega), hlen, filled, List.append_assoc,
    List.replicate_append_replicate, filled]
  congr 3
  omega

theorem loadCell_filled {n : Nat} {w : List α} {i : Nat} {c : α} (h : w[i]? = some c) :
    loadCell (filled n w) i = .ok c := by
  have hi : i < w.length := (List.getElem?_eq_some_iff.1 h).1
  rw [loadCell, filled, List.getElem?_append_left (by rw [cells_length]; exact hi), cells,
    List.getElem?_map, h]
  rfl

/-- Behind what was written nothing can be read. -/
theorem loadCell_filled_end {n : Nat} {w : List α} {i : Nat} (h : w.length ≤ i) :
    loadCell (filled n w) i = .error .read := by
  rw [loadCell, filled, List.getElem?_append_right (by rw [cells_length]; exact h),
    List.getElem?_replicate]
  split
  · next hc =>
      split at hc
      · cases hc
      · cases hc
  · rfl

end Filled

/-! ## Blocks that are written to more than once -/

section Starts

variable {α : Type}

/-- A block of `n` cells that starts with the values `w`; what stands behind them is left open. -/
structure BlockStarts (b : List (Option α)) (n : Nat) (w : List α) : Prop where
  length : b.length = n
  front : b.take w.length = cells w

theorem malloc_starts {n : Nat} (h : n ≤ ptrdiffMax) :
    (malloc n : CRun (List (Option α))) = .ok (List.replicate n none) ∧
      BlockStarts (List.replicate n (none : Option α)) n [] := by
  rw [malloc, if_pos h]
  exact ⟨rfl, List.length_replicate, rfl⟩

/-- What a block starts with it starts with less of, too. -/
theorem BlockStarts.left {b : List (Option α)} {n : Nat} {w t : List α}
    (h : BlockStarts b n (w ++ t)) : BlockStarts b n w := by
  refine ⟨h.length, ?_⟩
  have htake := congrArg (List.take w.length) h.front
  rwa [List.take_take, List.length_append, Nat.min_eq_left (Nat.le_add_right _ _), cells_append,
    List.take_left' (cells_length w)] at htake

/-- A block that is written to its end. -/
theorem BlockStarts.full {b : List (Option α)} {n : Nat} {w : List α} (h : BlockStarts b n w)
    (hn : w.length = n) : b = cells w := by
  have hfront := h.front
  rwa [hn, ← h.length, List.take_length] at hfront

theorem filled_starts {n : Nat} {w : List α} (h : w.length ≤ n) : BlockStarts (filled n w) n w :=
  ⟨filled_length h, List.take_left' (cells_length w)⟩

theorem getElem?_filled {n k : Nat} {w : List α} (hk : w.length ≤ k) (hn : k < n) :
    (filled n w)[k]? = some none := by
  rw [filled, List.getElem?_append_right (by rw [cells_length]; exact hk), cells_length,
    List.getElem?_replicate, if_pos (by omega)]

/-- A block that is written nowhere else. -/
theorem BlockStarts.eq_filled {b : List (Option α)} {n : Nat} {w : List α} (h : BlockStarts b n w)
    (hrest : ∀ k, w.length ≤ k → k < n → b[k]? = some none) : b = filled n w := by
  have hlen := h.length
  have htake := congrArg List.length h.front
  rw [List.length_take, cells_length] at htake
  refine List.ext_getElem? fun k => ?_
  by_cases hk : k < w.length
  · have hget := congrArg (·[k]?) h.front
    simp only [List.getElem?_take, if_pos hk] at hget
    rw [hget, filled, List.getElem?_append_left (by rw [cells_length]; exact hk)]
  · by_cases hn : k < n
    · rw [hrest k (by omega) hn, getElem?_filled (by omega) hn]
    · rw [List.getElem?_eq_none (by omega), List.getElem?_eq_none]
      rw [filled_length (by omega)]
      omega

theorem BlockStarts.store {b : List (Option α)} {n : Nat} {w : List α} (h : BlockStarts b n w)
    (hroom : w.length < n) (c : α) :
    ∃ b', store b w.length c = .ok b' ∧ BlockStarts b' n (w ++ [c]) := by
  have hlt : w.length < b.length := by rw [h.length]; exact hroom
  refine ⟨b.set w.length (some c), ?_, ?_, ?_⟩
  · rw [CLib.store, if_pos ⟨Int.natCast_nonneg _, by rw [Int.toNat_natCast]; exact hlt⟩]
    rfl
  · rw [List.length_set, h.length]
  · rw [List.length_append, List.length_singleton,
      List.take_succ_eq_append_getElem (by rw [List.length_set]; exact hlt), List.getElem_set_self,
      List.take_set_of_le (Nat.le_refl _), h.front, cells_append]
    rfl

theorem BlockStarts.memcpy {b : List (Option α)} {n : Nat} {w : List α} (h : BlockStarts b n w)
    {src : List (Option α)} {s : List α} (hsrc : src.take s.length = cells s)
    (hroom : w.length + s.length ≤ n) :
    ∃ b', memcpy b w.length src s.length = .ok b' ∧ BlockStarts b' n (w ++ s) := by
  have hlen := h.length
  have hsrclen : s.length ≤ src.length := by
    have htake := congrArg List.length hsrc
    rw [List.length_take, cells_length] at htake
    omega
  refine ⟨b.take w.length ++ src.take s.length ++ b.drop (w.length + s.length), ?_, ?_, ?_⟩
  · rw [CLib.memcpy, if_pos hsrclen, if_pos (by omega)]
  · simp only [List.length_append, List.length_take, List.length_drop]
    omega
  · rw [h.front, hsrc, ← cells_append]
    exact List.take_left' (cells_length _)

end Starts

/-! ## Cells that are not written -/

section Frame

variable {α : Type}

theorem getElem?_store {m m' : List (Option α)} {i : Int} {c : α}
    (h : store m i c = .ok m') (k : Nat) : m'[k]? = m[k]? ∨ (i = k ∧ m'[k]? = some (some c)) := by
  rw [store] at h
  split at h
  · next hi =>
      cases h
      by_cases hk : i.toNat = k
      · refine Or.inr ⟨by omega, ?_⟩
        rw [hk, List.getElem?_set_self (by omega)]
      · exact Or.inl (List.getElem?_set_ne hk)
  · cases h

/-- A copy leaves the cells in front of it and behind it as they were. -/
theorem getElem?_memcpy {m m' src : List (Option α)} {dst n : Nat}
    (h : memcpy m dst src n = .ok m') {k : Nat} (hk : k < dst ∨ dst + n ≤ k) : m'[k]? = m[k]? := by
  rw [memcpy] at h
  split at h
  · next hsrc =>
      split at h
      · next hdst =>
          cases h
          have hlen : (m.take dst ++ src.take n).length = dst + n := by
            rw [List.length_append, List.length_take, List.length_take]
            omega
          rcases hk with hk | hk
          · rw [List.append_assoc, List.getElem?_append_left (by rw [List.length_take]; omega),
              List.getElem?_take, if_pos hk]
          · rw [List.getElem?_append_right (by rw [hlen]; exact hk), hlen, List.getElem?_drop]
            congr 1
            omega
      · cases h
  · cases h

theorem store_length {m m' : List (Option α)} {i : Int} {c : α} (h : store m i c = .ok m') :
    m'.length = m.length := by
  rw [store] at h
  split at h
  · cases h
    exact List.length_set
  · cases h

theorem memcpy_length {m m' src : List (Option α)} {dst n : Nat} (h : memcpy m dst src n = .ok m') :
    m'.length = m.length ∧ dst + n ≤ m.length := by
  rw [memcpy] at h
  split at h
  · split at h
    · next hsrc hdst =>
        cases h
        refine ⟨?_, hdst⟩
        simp only [List.length_append, List.length_take, List.length_drop]
        omega
    · cases h
  · cases h

end Frame

/-! ## C strings -/

/-- The string a pointer points to, the memory from the pointer on being given; `strlen` is its
    length. -/
def cstr : List (Option UInt8) → CRun (List UInt8)
  | [] => .error .read
  | none :: _ => .error .read
  | some c :: m => if c = 0 then .ok [] else (c :: ·) <$> cstr m

/-- The memory a string argument points to. -/
def cstrMem (s : List UInt8) : List (Option UInt8) := cells (s ++ [0])

theorem cstr_cells (s : List UInt8) (hs : 0 ∉ s) (m : List (Option UInt8)) :
    cstr (cells s ++ some 0 :: m) = .ok s := by
  induction s with
  | nil => simp [cstr]
  | cons c s ih =>
      have hc : c ≠ 0 := fun h => hs (h ▸ List.mem_cons_self ..)
      rw [cells_cons, List.cons_append, cstr, if_neg hc, ih (fun h => hs (List.mem_cons_of_mem _ h))]
      rfl

theorem cstr_cstrMem {s : List UInt8} (hs : 0 ∉ s) : cstr (cstrMem s) = .ok s := by
  rw [cstrMem, cells_append]
  exact cstr_cells s hs []

/-- Bytes that run into a cell without a value are no string. -/
theorem cstr_uninit (s : List UInt8) (hs : 0 ∉ s) (m : List (Option UInt8)) :
    cstr (cells s ++ none :: m) = .error .read := by
  induction s with
  | nil => simp [cstr]
  | cons c s ih =>
      have hc : c ≠ 0 := fun h => hs (h ▸ List.mem_cons_self ..)
      rw [cells_cons, List.cons_append, cstr, if_neg hc, ih (fun h => hs (List.mem_cons_of_mem _ h))]
      rfl

/-- The cells in front of the NUL hold the string. -/
theorem cstr_take {m : List (Option UInt8)} {s : List UInt8} (h : cstr m = .ok s) :
    m.take s.length = cells s ∧ s.length < m.length ∧ 0 ∉ s := by
  induction m generalizing s with
  | nil => cases h
  | cons c m ih =>
      cases c with
      | none => cases h
      | some c =>
          rw [cstr] at h
          split at h
          · cases h
            exact ⟨rfl, by simp, by simp⟩
          · next hc =>
              cases hm : cstr m with
              | error f =>
                  rw [hm] at h
                  cases h
              | ok t =>
                  rw [hm] at h
                  cases h
                  obtain ⟨htake, hlen, hnul⟩ := ih hm
                  refine ⟨by rw [List.length_cons, List.take_succ_cons, htake, cells_cons], ?_, ?_⟩
                  · rw [List.length_cons, List.length_cons]
                    omega
                  · intro hmem
                    rcases List.mem_cons.1 hmem with h0 | h0
                    · exact hc h0.symm
                    · exact hnul h0

theorem getElem?_cstr {m : List (Option UInt8)} {s : List UInt8} (h : cstr m = .ok s) {k : Nat}
    {c : UInt8} (hc : s[k]? = some c) : m[k]? = some (some c) ∧ c ≠ 0 := by
  obtain ⟨htake, _, hnul⟩ := cstr_take h
  have hk : k < s.length := (List.getElem?_eq_some_iff.1 hc).1
  constructor
  · have hget := congrArg (·[k]?) htake
    simp only [List.getElem?_take, if_pos hk, cells, List.getElem?_map, hc] at hget
    exact hget
  · rintro rfl
    exact hnul (List.mem_of_getElem? hc)

/-- With the NUL behind it. -/
theorem cstr_take_nul {m : List (Option UInt8)} {s : List UInt8} (h : cstr m = .ok s) :
    m.take (s.length + 1) = cells (s ++ [0]) := by
  induction m generalizing s with
  | nil => cases h
  | cons c m ih =>
      cases c with
      | none => cases h
      | some c =>
          rw [cstr] at h
          split at h
          · next hc =>
              cases h
              rw [hc]
              rfl
          · cases hm : cstr m with
            | error f =>
                rw [hm] at h
                cases h
            | ok t =>
                rw [hm] at h
                cases h
                rw [List.length_cons, List.take_succ_cons, ih hm]
                rfl

/-- `strcpy(m + dst, src)`. -/
def strcpy (m : List (Option UInt8)) (dst : Nat) (src : List (Option UInt8)) :
    CRun (List (Option UInt8)) := do
  let s ← cstr src
  memcpy m dst src (s.length + 1)

/-- `strcpy(m + dst, src)`, `dst` being signed. -/
def strcpyAt (m : List (Option UInt8)) (dst : Int) (src : List (Option UInt8)) :
    CRun (List (Option UInt8)) := do
  let s ← cstr src
  memcpyAt m dst src (s.length + 1)

theorem BlockStarts.strcpy {b : List (Option UInt8)} {n : Nat} {w : List UInt8}
    (h : BlockStarts b n w) {src : List (Option UInt8)} {s : List UInt8} (hsrc : cstr src = .ok s)
    (hroom : w.length + s.length + 1 ≤ n) :
    ∃ b', strcpy b w.length src = .ok b' ∧ BlockStarts b' n (w ++ s ++ [0]) := by
  have hlen : (s ++ [0]).length = s.length + 1 := by
    rw [List.length_append, List.length_singleton]
  have htake : src.take (s ++ [0]).length = cells (s ++ [0]) := by
    rw [hlen]
    exact cstr_take_nul hsrc
  obtain ⟨b', hcopy, hstarts⟩ := h.memcpy htake (by rw [hlen]; omega)
  refine ⟨b', ?_, by rwa [List.append_assoc]⟩
  rw [CLib.strcpy, hsrc, ok_bind, ← hlen]
  exact hcopy

/-- `strstr(s, needle)`: where the first occurrence starts, counted from `i` at the start of `s`. -/
def strstr (needle : List UInt8) : List UInt8 → Nat → Option Nat
  | [], i => if needle = [] then some i else none
  | c :: s, i => if needle.isPrefixOf (c :: s) then some i else strstr needle s (i + 1)

theorem strstr_le {needle s : List UInt8} {i j : Nat} (h : strstr needle s i = some j) : i ≤ j := by
  induction s generalizing i with
  | nil =>
      simp only [strstr] at h
      split at h
      · cases h
        exact Nat.le_refl _
      · cases h
  | cons c s ih =>
      simp only [strstr] at h
      split at h
      · cases h
        exact Nat.le_refl _
      · exact Nat.le_of_succ_le (ih h)

/-- `strstr(s, needle) == s` asks whether `s` starts with `needle`. -/
theorem strstr_eq_zero_iff {needle s : List UInt8} :
    strstr needle s 0 = some 0 ↔ needle <+: s := by
  cases s with
  | nil => simp [strstr]
  | cons c s =>
      simp only [strstr]
      split
      · next h => simpa using h
      · next h =>
          constructor
          · intro hs
            exact absurd (strstr_le hs) (by omega)
          · intro hp
            have hb := List.isPrefixOf_iff_prefix.2 hp
            exact absurd hb h

end CLib
