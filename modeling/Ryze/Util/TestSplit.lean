import Ryze.Lib.Cutting
import Ryze.Util.TestPath

set_option autoImplicit false

/-! # `str_split` of `test.c` and the walk over the pieces

Each round finds the next delimiter behind the one before it and puts a NUL on its first byte; the
other bytes of the delimiter stay. So a walk that steps over a string and as many bytes as the
delimiter has goes from piece to piece, until it comes to the pointer that was returned. -/

namespace Ryze

open CLib Cutting

namespace Test

/-! ## The walk -/

/-- One round of the loop over the pieces: the piece at `p` is read, and unless it is the last one the
    next one starts behind a delimiter of `n` bytes. The pieces that were read are collected. -/
def visitRound (str : List (Option UInt8)) (last n : Nat) (st : Nat × List (List UInt8)) :
    CRun ((Nat × List (List UInt8)) ⊕ List (List UInt8)) := do
  let c ← cstr (str.drop st.1)
  if st.1 = last then return .inr (st.2 ++ [c])
  else return .inl (st.1 + c.length + n, st.2 ++ [c])

/-- `p = str; while(1) { …; if(p == last) break; p += strlen(p) + n; }` -/
def visit (str : List (Option UInt8)) (last n : Nat) : CRun (List (List UInt8)) :=
  cLoop (visitRound str last n) (str.length + 1) (0, [])

/-! ## The memory that is left -/

/-- NULs at the positions `is`. -/
def blank (m : List (Option UInt8)) (is : List Nat) : List (Option UInt8) :=
  is.foldl (fun m i => m.set i (some 0)) m

/-- The pieces, each with a NUL and the rest of the delimiter behind it, the last one with a NUL
    only. -/
def nulPieces (d : List UInt8) : List (List UInt8) → List UInt8
  | [] => []
  | [c] => c ++ [0]
  | c :: cs => c ++ 0 :: d.tail ++ nulPieces d cs

theorem nulPieces_cons (d c : List UInt8) {cs : List (List UInt8)} (hne : cs ≠ []) :
    nulPieces d (c :: cs) = c ++ 0 :: d.tail ++ nulPieces d cs := by
  rw [nulPieces]
  exact hne

section Split

variable {d : List UInt8}

theorem blank_cut (x : UInt8) (d w c b : List UInt8) :
    (cells (w ++ (c ++ x :: d ++ b))).set (w.length + c.length) (some 0)
      = cells (w ++ c ++ 0 :: d ++ b) := by
  have hcells : cells (w ++ (c ++ x :: d ++ b)) = cells (w ++ c) ++ some x :: cells (d ++ b) := by
    simp
  have hlen : w.length + c.length = (cells (w ++ c)).length := by
    rw [cells_length, List.length_append]
  rw [hcells, hlen, List.set_append_right _ _ (Nat.le_refl _), Nat.sub_self, List.set_cons_zero]
  simp

/-- NULs on the first bytes of the delimiters turn the string into its pieces. -/
theorem blank_cuts (hne : d ≠ []) {s : List UInt8} {ps : List (List UInt8)} (hps : Pieces d s ps)
    (w : List UInt8) :
    blank (cells (w ++ (s ++ [0]))) (cuts d w.length ps) = cells (w ++ nulPieces d ps) := by
  induction hps generalizing w with
  | last h => rfl
  | @cut a b ps h rest ih =>
      obtain ⟨x, d, rfl⟩ := List.exists_cons_of_ne_nil hne
      have hlen : w.length + a.length + (x :: d).length = (w ++ a ++ 0 :: d).length := by
        simp only [List.length_append, List.length_cons]
      have hset := blank_cut x d w a (b ++ [0])
      rw [← List.append_assoc _ b] at hset
      rw [cuts_cons _ _ rest.ne_nil, nulPieces_cons _ _ rest.ne_nil, blank, List.foldl_cons, hset,
        hlen]
      have hih := ih (w ++ a ++ 0 :: d)
      rw [blank] at hih
      rw [hih, List.tail_cons]
      simp

/-! ## Splitting -/

/-- A round that finds a delimiter puts a NUL on its first byte. -/
theorem splitRound_cut {w a b : List UInt8} (hne : d ≠ []) (hnul : 0 ∉ a ++ d ++ b)
    (hfirst : ∀ i < a.length, ¬ OccursAt d (a ++ d ++ b) i) :
    splitRound d ⟨cells (w ++ (a ++ d ++ b ++ [0])), w.length, w.length⟩
      = .ok (.inl ⟨cells (w ++ a ++ 0 :: d.tail ++ (b ++ [0])), (w ++ a ++ 0 :: d.tail).length,
          (w ++ a ++ 0 :: d.tail).length⟩) := by
  obtain ⟨x, d, rfl⟩ := List.exists_cons_of_ne_nil hne
  have hdrop : (cells (w ++ (a ++ x :: d ++ b ++ [0]))).drop w.length
      = cells (a ++ x :: d ++ b) ++ [some 0] := by
    rw [cells_append, List.drop_left' (cells_length w), cells_append]
    rfl
  have hset := blank_cut x d w a (b ++ [0])
  rw [← List.append_assoc _ b] at hset
  have hroom : w.length + a.length < (cells (w ++ (a ++ x :: d ++ b ++ [0]))).length := by
    rw [cells_length]
    simp only [List.length_append, List.length_cons]
    omega
  have hend : w.length + a.length + (x :: d).length = (w ++ a ++ 0 :: d).length := by
    simp only [List.length_append, List.length_cons]
  simp only [splitRound, hdrop]
  rw [cstr_cells _ hnul, ok_bind, strstr_first hne (occursAt_append _ a b) hfirst]
  simp only [hend]
  rw [store, if_pos ⟨Int.natCast_nonneg _, by rwa [Int.toNat_natCast]⟩, Int.toNat_natCast, hset]
  rfl

theorem splitRound_end {w s : List UInt8} (hne : d ≠ []) (hnul : 0 ∉ s)
    (hnone : ∀ i, ¬ OccursAt d s i) :
    splitRound d ⟨cells (w ++ (s ++ [0])), w.length, w.length⟩
      = .ok (.inr ⟨cells (w ++ (s ++ [0])), w.length, w.length⟩) := by
  have hdrop : (cells (w ++ (s ++ [0]))).drop w.length = cells s ++ [some 0] := by
    rw [cells_append, List.drop_left' (cells_length w), cells_append]
    rfl
  simp only [splitRound, hdrop]
  rw [cstr_cells _ hnul, ok_bind, strstr_none hne hnone]
  rfl

/-- The delimiters are found one by one. -/
theorem splitLoop_pieces (hne : d ≠ []) {s : List UInt8} {ps : List (List UInt8)}
    (hps : Pieces d s ps) (hnul : 0 ∉ s) (w : List UInt8) {n : Nat} (hn : ps.length ≤ n) :
    cLoop (splitRound d) n ⟨cells (w ++ (s ++ [0])), w.length, w.length⟩
      = .ok ⟨cells (w ++ nulPieces d ps), w.length + lastStart d ps,
          w.length + lastStart d ps⟩ := by
  induction hps generalizing w n with
  | last h =>
      obtain ⟨n, rfl⟩ : ∃ k, n = k + 1 := ⟨n - 1, by rw [List.length_singleton] at hn; omega⟩
      rw [cLoop_exit (splitRound_end hne hnul h)]
      rfl
  | @cut a b ps h rest ih =>
      rw [List.length_cons] at hn
      obtain ⟨n, rfl⟩ : ∃ k, n = k + 1 := ⟨n - 1, by omega⟩
      have hb : 0 ∉ b := fun h0 => hnul (List.mem_append_right _ h0)
      have hpos := List.length_pos_of_ne_nil hne
      have hlen : (w ++ a ++ 0 :: d.tail).length + lastStart d ps
          = w.length + lastStart d (a :: ps) := by
        rw [lastStart_cons _ _ rest.ne_nil]
        simp only [List.length_append, List.length_cons, List.length_tail]
        omega
      have hjoin : w ++ a ++ 0 :: d.tail ++ nulPieces d ps = w ++ nulPieces d (a :: ps) := by
        rw [nulPieces_cons _ _ rest.ne_nil]
        simp
      rw [cLoop_next (splitRound_cut hne hnul h), ih hb (w ++ a ++ 0 :: d.tail) (by omega), hlen,
        hjoin]

theorem strSplit_pieces {s : List UInt8} {ps : List (List UInt8)} (hne : d ≠ [])
    (hps : Pieces d s ps) (hnul : 0 ∉ s) :
    strSplit (cstrMem s) d = .ok (cells (nulPieces d ps), lastStart d ps) := by
  have hn : ps.length ≤ (cstrMem s).length + 1 := by
    have hle := hps.length_le hne
    rw [cstrMem, cells_length, List.length_append, List.length_singleton]
    omega
  have hloop := splitLoop_pieces hne hps hnul [] hn
  rw [List.nil_append, List.nil_append, List.length_nil, Nat.zero_add, ← cstrMem] at hloop
  rw [strSplit, hloop]
  rfl

/-! ## Walking over the pieces -/

/-- The walk reads the pieces one by one. -/
theorem visitLoop_pieces {str m : List (Option UInt8)} {ps : List (List UInt8)} {p last n : Nat}
    (hd : d ≠ []) (hne : ps ≠ []) (hps : ∀ c ∈ ps, 0 ∉ c)
    (hp : str.drop p = cells (nulPieces d ps) ++ m) (hlast : last = p + lastStart d ps)
    (hn : ps.length ≤ n) (acc : List (List UInt8)) :
    cLoop (visitRound str last d.length) n (p, acc) = .ok (acc ++ ps) := by
  induction ps generalizing p n acc with
  | nil => exact absurd rfl hne
  | cons c ps ih =>
      rw [List.length_cons] at hn
      obtain ⟨n, rfl⟩ : ∃ k, n = k + 1 := ⟨n - 1, by omega⟩
      have hc := hps c (List.mem_cons_self ..)
      have hpos := List.length_pos_of_ne_nil hd
      by_cases hend : ps = []
      · subst hend
        have hstr : cstr (str.drop p) = .ok c := by
          rw [hp, nulPieces, cells_append, List.append_assoc]
          exact cstr_cells c hc m
        refine cLoop_exit ?_ n
        simp only [visitRound]
        rw [hstr, ok_bind, if_pos (by rw [hlast]; rfl)]
        rfl
      · rw [lastStart_cons _ _ hend] at hlast
        rw [nulPieces_cons _ _ hend] at hp
        have hstr : cstr (str.drop p) = .ok c := by
          rw [hp, cells_append, cells_append, cells_cons, List.append_assoc, List.append_assoc]
          exact cstr_cells c hc _
        have hnext : str.drop (p + c.length + d.length) = cells (nulPieces d ps) ++ m := by
          have hfront : (cells (c ++ 0 :: d.tail)).length = c.length + d.length := by
            rw [cells_length, List.length_append, List.length_cons, List.length_tail]
            omega
          rw [Nat.add_assoc, ← hfront]
          refine drop_add_of_drop ?_
          rw [hp, cells_append, List.append_assoc]
        have hround : visitRound str last d.length (p, acc)
            = .ok (.inl (p + c.length + d.length, acc ++ [c])) := by
          simp only [visitRound]
          rw [hstr, ok_bind, if_neg (by omega)]
          rfl
        rw [cLoop_next hround, ih hend (fun c hc => hps c (List.mem_cons_of_mem _ hc)) hnext
          (by omega) (by omega), List.append_assoc]
        rfl

theorem visit_pieces {s : List UInt8} {ps : List (List UInt8)} (hne : d ≠ [])
    (hps : Pieces d s ps) (hnul : 0 ∉ s) :
    visit (cells (nulPieces d ps)) (lastStart d ps) d.length = .ok ps := by
  have hlen : (nulPieces d ps).length = s.length + 1 := by
    have hblank := congrArg List.length (blank_cuts hne hps [])
    have hset : ∀ (is : List Nat) (m : List (Option UInt8)), (blank m is).length = m.length := by
      intro is
      induction is with
      | nil =>
          intro m
          rfl
      | cons i is ih =>
          intro m
          rw [blank, List.foldl_cons, ← blank, ih, List.length_set]
    rw [hset, cells_length, cells_length, List.nil_append, List.nil_append, List.length_append,
      List.length_singleton] at hblank
    exact hblank.symm
  have hn : ps.length ≤ (cells (nulPieces d ps)).length + 1 := by
    have hle := hps.length_le hne
    rw [cells_length]
    omega
  have hp : (cells (nulPieces d ps)).drop 0 = cells (nulPieces d ps) ++ [] := by
    rw [List.drop_zero, List.append_nil]
  exact visitLoop_pieces hne hps.ne_nil (fun c hc h0 => hnul (hps.mem hc h0)) hp
    (Nat.zero_add _).symm hn []

end Split

/-- **Splitting in place.** The loop ends, puts a NUL on the first byte of every occurrence of the
    delimiter and changes nothing else, and the walk from the start to the returned pointer reads the
    pieces between the occurrences, which joined again are the string. -/
theorem strSplit_visits (s d : List UInt8) (hs : 0 ∉ s) (hne : d ≠ []) :
    ∃ ps str last, Pieces d s ps ∧ strSplit (cstrMem s) d = .ok (str, last) ∧
      str = blank (cstrMem s) (cuts d 0 ps) ∧ visit str last d.length = .ok ps ∧
      d.intercalate ps = s := by
  obtain ⟨ps, hps⟩ := exists_pieces hne s
  have hblank := blank_cuts hne hps []
  rw [List.nil_append, List.nil_append] at hblank
  exact ⟨ps, _, _, hps, strSplit_pieces hne hps hs, hblank.symm, visit_pieces hne hps hs, hps.join⟩

/-- `aaaba` cut at `aa`: the second and the third `a` are no occurrence of their own. -/
theorem strSplit_visits_overlap :
    ∃ ps str last, Pieces (bytes "aa") (bytes "aaaba") ps ∧
      strSplit (cstrMem (bytes "aaaba")) (bytes "aa") = .ok (str, last) ∧
      str = blank (cstrMem (bytes "aaaba")) (cuts (bytes "aa") 0 ps) ∧
      visit str last (bytes "aa").length = .ok ps ∧ (bytes "aa").intercalate ps = bytes "aaaba" :=
  strSplit_visits (bytes "aaaba") (bytes "aa") (by decide) (by decide)

end Test

end Ryze
