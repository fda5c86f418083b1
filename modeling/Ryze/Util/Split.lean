import Ryze.Lib.Cutting
import Ryze.Util.Path

set_option autoImplicit false

/-! # `str_split` of `util.c` and the walk over the pieces

Every delimiter becomes a NUL, the pieces are counted, and the pointer returned is where the last of
them starts; an empty piece behind the last delimiter is left out of both. So a walk of `*count`
steps, each behind the NUL of the string before, reads the pieces one by one. `*count` is an `int`:
of more pieces than that the walk does not reach the end (`strSplit_visits_iff`). -/

namespace Ryze

open CLib Cutting

/-! ## Pieces -/

/-- Strings, each in front of a NUL. -/
def nulJoin (cs : List (List UInt8)) : List UInt8 := cs.flatMap (· ++ [0])

@[simp] theorem nulJoin_cons (c : List UInt8) (cs : List (List UInt8)) :
    nulJoin (c :: cs) = c ++ 0 :: nulJoin cs := by
  simp [nulJoin]

/-- The pieces `str_split` counts: all but an empty one behind the last delimiter. -/
def counted : List (List UInt8) → List (List UInt8)
  | [] => []
  | [c, []] => [c]
  | c :: cs => c :: counted cs

theorem counted_cons {c : List UInt8} {cs : List (List UInt8)} (h : cs ≠ [[]]) :
    counted (c :: cs) = c :: counted cs := by
  rw [counted]
  rintro rfl
  exact h rfl

theorem counted_cases (cs : List (List UInt8)) : counted cs = cs ∨ cs = counted cs ++ [[]] := by
  induction cs with
  | nil => exact Or.inl rfl
  | cons c cs ih =>
      by_cases hcs : cs = [[]]
      · subst hcs
        exact Or.inr rfl
      · rw [counted_cons hcs]
        rcases ih with h | h
        · exact Or.inl (by rw [h])
        · refine Or.inr ?_
          rw [List.cons_append, ← h]

theorem counted_subset (cs : List (List UInt8)) : counted cs ⊆ cs := by
  rcases counted_cases cs with h | h
  · exact fun c hc => h ▸ hc
  · exact fun c hc => h ▸ List.mem_append_left _ hc

theorem counted_ne_nil {cs : List (List UInt8)} (hne : cs ≠ []) : counted cs ≠ [] := by
  obtain ⟨c, cs, rfl⟩ := List.exists_cons_of_ne_nil hne
  by_cases hcs : cs = [[]]
  · subst hcs
    simp [counted]
  · rw [counted_cons hcs]
    simp

theorem counted_of_last {cs : List (List UInt8)} (hne : cs ≠ []) (hlast : cs.getLast hne ≠ []) :
    counted cs = cs := by
  rcases counted_cases cs with h | h
  · exact h
  · have hget : cs.getLast? = some [] := by rw [h, List.getLast?_concat]
    rw [List.getLast?_eq_some_getLast hne] at hget
    exact absurd (Option.some.inj hget) hlast

/-- The strings behind the counted ones are an empty one at most. -/
theorem nulJoin_counted (cs : List (List UInt8)) :
    ∃ m, cells (nulJoin cs) = cells (nulJoin (counted cs)) ++ m := by
  rcases counted_cases cs with h | h
  · exact ⟨[], by rw [h, List.append_nil]⟩
  · refine ⟨[some 0], ?_⟩
    have hjoin : nulJoin cs = nulJoin (counted cs) ++ [0] := by
      conv_lhs => rw [h, nulJoin, List.flatMap_append]
      rfl
    rw [hjoin, cells_append]
    rfl

/-! ## Splitting -/

/-- The loop of `str_split` with a count that does not wrap, for a delimiter that is a `char`. -/
def splitLoop (delim : UInt8) : (left : Nat) → List (Option UInt8) → (i last count : Nat) →
    CRun (List (Option UInt8) × Nat × Nat)
  | 0, m, _, last, count => .ok (m, last, count)
  | left + 1, some c :: m, i, last, count =>
    if c = delim then do
      let (m, r) ← if 0 < left then splitLoop delim left m (i + 1) (i + 1) (count + 1)
        else splitLoop delim left m (i + 1) last count
      return (some 0 :: m, r)
    else do
      let (m, r) ← splitLoop delim left m (i + 1) last count
      return (some c :: m, r)
  | _ + 1, _, _, _, _ => .error .read

/-- `str_split` with a count that does not wrap. -/
def strSplit (str : List (Option UInt8)) (delim : UInt8) :
    CRun (List (Option UInt8) × Nat × Nat) := do
  let s ← cstr str
  splitLoop delim s.length str 0 0 1

section Split

variable {d : UInt8} {s : List UInt8} {ps : List (List UInt8)}

theorem splitLoop_skip (w : List UInt8) (hw : d ∉ w) (left : Nat) (m : List (Option UInt8))
    (i last count : Nat) :
    splitLoop d (w.length + left) (cells w ++ m) i last count = (do
      let (m, r) ← splitLoop d left m (i + w.length) last count
      return (cells w ++ m, r)) := by
  induction w generalizing i with
  | nil =>
      simp only [List.length_nil, Nat.zero_add, cells_nil, List.nil_append, Nat.add_zero]
      cases splitLoop d left m i last count <;> rfl
  | cons c w ih =>
      have hc : c ≠ d := fun h => hw (h ▸ List.mem_cons_self ..)
      rw [List.length_cons, show w.length + 1 + left = w.length + left + 1 by omega, cells_cons,
        List.cons_append, splitLoop, if_neg hc, ih (fun h => hw (List.mem_cons_of_mem _ h)),
        show i + 1 + w.length = i + (w.length + 1) by omega]
      cases splitLoop d left m (i + (w.length + 1)) last count <;> rfl

/-- Every delimiter becomes a NUL, and the pieces are counted. -/
theorem splitLoop_pieces (hps : Pieces [d] s ps) (i count : Nat) :
    splitLoop d s.length (cells s ++ [some 0]) i i (count + 1)
      = .ok (cells (nulJoin ps), i + lastStart [d] (counted ps), count + (counted ps).length) := by
  induction hps generalizing i count with
  | @last s h =>
      have hs : d ∉ s := (Pieces.last h).notMem (List.mem_singleton_self s)
      have hskip := splitLoop_skip s hs 0 [some 0] i i (count + 1)
      rw [Nat.add_zero] at hskip
      rw [hskip]
      simp [splitLoop, nulJoin, counted, lastStart]
  | @cut a b ps h rest ih =>
      have ha : d ∉ a := (Pieces.cut h rest).notMem (List.mem_cons_self ..)
      have hcells : cells (a ++ [d] ++ b) ++ [some 0]
          = cells a ++ some d :: (cells b ++ [some 0]) := by simp
      have hlen : (a ++ [d] ++ b).length = a.length + (b.length + 1) := by
        simp only [List.length_append, List.length_singleton]
        omega
      rw [hcells, hlen, splitLoop_skip a ha, splitLoop, if_pos rfl]
      by_cases hb : b = []
      · -- nothing stands behind this delimiter, so it starts no piece
        subst hb
        obtain rfl := rest.unique (Pieces.last fun i hi => by simpa using getElem?_of_occursAt hi)
        simp [splitLoop, nulJoin, counted, lastStart]
      · have hps : ps ≠ [[]] := by
          rintro rfl
          exact hb rest.join.symm
        rw [if_pos (List.length_pos_of_ne_nil hb), ih (i + a.length + 1) (count + 1),
          counted_cons hps, lastStart_cons _ _ (counted_ne_nil rest.ne_nil)]
        simp only [ok_bind, pure_eq_ok, nulJoin_cons, cells_append, cells_cons, List.length_cons,
          List.length_nil]
        congr 3
        · omega
        · omega

theorem strSplit_pieces (hs : 0 ∉ s) (hps : Pieces [d] s ps) :
    strSplit (cells (s ++ [0])) d
      = .ok (cells (nulJoin ps), lastStart [d] (counted ps), (counted ps).length) := by
  have hloop := splitLoop_pieces hps 0 0
  rw [Nat.zero_add, Nat.zero_add, Nat.zero_add] at hloop
  rw [strSplit, cells_append, cells_cons, cells_nil, cstr_cells s hs, ok_bind]
  exact hloop

end Split

/-! ## The walk -/

/-- The component a pointer points to, and where the next one stands. -/
theorem component_at {str m : List (Option UInt8)} {c : List UInt8} {cs : List (List UInt8)}
    {p : Nat} (hc : 0 ∉ c) (hp : str.drop p = cells (nulJoin (c :: cs)) ++ m) :
    cstr (str.drop p) = .ok c ∧ str.drop (p + c.length + 1) = cells (nulJoin cs) ++ m := by
  have hcells : cells (nulJoin (c :: cs)) ++ m
      = cells c ++ some 0 :: (cells (nulJoin cs) ++ m) := by simp
  rw [hcells] at hp
  refine ⟨by rw [hp, cstr_cells c hc], ?_⟩
  rw [Nat.add_assoc, ← List.drop_drop, hp, ← List.drop_drop, List.drop_left' (cells_length c)]
  rfl

/-- `p += strlen(p) + 1` with `left` steps to go: the pointers, and the strings that are read
    there. -/
def pieceWalk (str : List (Option UInt8)) : (left p : Nat) → CRun (List (Nat × List UInt8))
  | 0, _ => .ok []
  | left + 1, p => do
    let c ← cstr (str.drop p)
    let visited ← pieceWalk str left (p + c.length + 1)
    return (p, c) :: visited

theorem pieceWalk_length {str : List (Option UInt8)} {left p : Nat}
    {visited : List (Nat × List UInt8)} (h : pieceWalk str left p = .ok visited) :
    visited.length = left := by
  induction left generalizing p visited with
  | zero =>
      cases h
      rfl
  | succ left ih =>
      rw [pieceWalk] at h
      obtain ⟨c, -, h⟩ := bind_eq_ok.1 h
      obtain ⟨rest, hrest, h⟩ := bind_eq_ok.1 h
      cases h
      rw [List.length_cons, ih hrest]

/-- A walk of as many steps as there are pieces reads them, the last one `lastStart` behind the
    first. -/
theorem pieceWalk_pieces {str m : List (Option UInt8)} (d : UInt8) {cs : List (List UInt8)}
    {p : Nat} (hne : cs ≠ []) (hcs : ∀ c ∈ cs, 0 ∉ c) (hp : str.drop p = cells (nulJoin cs) ++ m) :
    ∃ visited, pieceWalk str cs.length p = .ok visited ∧ visited.map Prod.snd = cs ∧
      visited.getLast?.map Prod.fst = some (p + lastStart [d] cs) := by
  induction cs generalizing p with
  | nil => exact absurd rfl hne
  | cons c cs ih =>
      obtain ⟨hc, hnext⟩ := component_at (hcs c (List.mem_cons_self ..)) hp
      rw [List.length_cons, pieceWalk, hc, ok_bind]
      by_cases hend : cs = []
      · subst hend
        exact ⟨[(p, c)], rfl, rfl, rfl⟩
      · obtain ⟨visited, hwalk, hpieces, hlast⟩ :=
          ih hend (fun c hc => hcs c (List.mem_cons_of_mem _ hc)) hnext
        refine ⟨(p, c) :: visited, by rw [hwalk]; rfl, by rw [List.map_cons, hpieces], ?_⟩
        have hvisited : visited ≠ [] := by
          rintro rfl
          exact hend hpieces.symm
        rw [List.getLast?_cons_of_ne_nil hvisited, hlast, lastStart_cons _ _ hend,
          List.length_singleton]
        congr 1
        omega

/-! ## The `int`s -/

/-- `*count` when `n` pieces were counted. -/
def countAs (given : Bool) (n : Nat) : Option Int := if given then some (toInt32 n) else none

theorem schar_inj {c d : UInt8} : schar c = schar d ↔ c = d := by
  refine ⟨fun h => ?_, fun h => h ▸ rfl⟩
  have hc := c.toNat_lt
  have hd := d.toNat_lt
  unfold schar at h
  exact UInt8.toNat_inj.1 (by split at h <;> split at h <;> omega)

theorem countAs_succ (given : Bool) (n : Nat) :
    (countAs given n).map (fun n => toInt32 (n + 1)) = countAs given (n + 1) := by
  cases given with
  | false => rfl
  | true =>
      have hwrap : toInt32 (toInt32 n + 1) = toInt32 ((n + 1 : Nat) : Int) := by
        simp [toInt32]
      exact congrArg some hwrap

/-- A delimiter that is a `char`: the pieces are counted as before, and `*count` is their number as
    an `int`. -/
theorem splitLoopInt_eq (d : UInt8) (given : Bool) (left : Nat) (m : List (Option UInt8))
    (i last n : Nat) :
    splitLoopInt (schar d) left m i last (countAs given n) = (do
      let (m, last, n) ← splitLoop d left m i last n
      return (m, last, countAs given n)) := by
  induction left generalizing m i last n with
  | zero => rfl
  | succ left ih =>
      match m with
      | [] => rfl
      | none :: m => rfl
      | some c :: m =>
          by_cases hc : c = d
          · rw [splitLoopInt, splitLoop, if_pos (schar_inj.2 hc), if_pos hc, countAs_succ, ih, ih]
            by_cases hleft : 0 < left
            · rw [if_pos hleft, if_pos hleft]
              cases splitLoop d left m (i + 1) (i + 1) (n + 1) <;> rfl
            · rw [if_neg hleft, if_neg hleft]
              cases splitLoop d left m (i + 1) last n <;> rfl
          · rw [splitLoopInt, splitLoop, if_neg fun h => hc (schar_inj.1 h), if_neg hc, ih]
            cases splitLoop d left m (i + 1) last n <;> rfl

/-- A delimiter that no byte of the string is as a `char`. -/
theorem splitLoopInt_skip {delim : Int} {s : List UInt8} (hs : ∀ c ∈ s, schar c ≠ delim)
    (m : List (Option UInt8)) (i last : Nat) (count : Option Int) :
    splitLoopInt delim s.length (cells s ++ m) i last count = .ok (cells s ++ m, last, count) := by
  induction s generalizing i with
  | nil => rfl
  | cons c s ih =>
      rw [List.length_cons, cells_cons, List.cons_append, splitLoopInt,
        if_neg (hs c (List.mem_cons_self ..)), ih fun c hc => hs c (List.mem_cons_of_mem _ hc)]
      rfl

section Visits

variable {s : List UInt8} {d : UInt8} {ps : List (List UInt8)}

theorem strSplitInt_pieces (hs : 0 ∉ s) (hps : Pieces [d] s ps) (given : Bool) :
    strSplitInt (cstrMem s) (schar d) given = .ok (cells (nulJoin ps),
      lastStart [d] (counted ps), countAs given (counted ps).length) := by
  have hsplit := strSplit_pieces hs hps
  have hone : (if given then some 1 else none) = countAs given 1 := by
    cases given <;> rfl
  rw [← cstrMem, strSplit, cstr_cstrMem hs, ok_bind] at hsplit
  rw [strSplitInt, cstr_cstrMem hs, ok_bind, hone, splitLoopInt_eq, hsplit]
  rfl

/-- After the call the walk of `*count` steps reads the pieces of `s` between the bytes `d`, an
    empty one behind the last `d` left out, and the pointer that was returned is where it read the
    last. -/
def SplitVisits (s : List UInt8) (delim : Int) (d : UInt8) : Prop :=
  ∃ str last count visited, strSplitInt (cstrMem s) delim true = .ok (str, last, some count) ∧
    pieceWalk str count.toNat 0 = .ok visited ∧
    visited.map Prod.snd = counted (s.splitOn d) ∧
    visited.getLast?.map Prod.fst = some last

/-- The walk reads all the pieces if `*count` is their number. -/
theorem splitVisits_char_iff (hs : 0 ∉ s) :
    SplitVisits s (schar d) d ↔ (counted (s.splitOn d)).length ≤ intMax := by
  have hps := pieces_splitOn d s
  have hrun := strSplitInt_pieces hs hps true
  rw [countAs, if_pos rfl] at hrun
  constructor
  · rintro ⟨str, last, count, visited, h, hwalk, hpieces, -⟩
    simp only [hrun, Except.ok.injEq, Prod.mk.injEq, Option.some.injEq] at h
    obtain ⟨rfl, rfl, rfl⟩ := h
    have hlen := pieceWalk_length hwalk
    rw [← List.length_map Prod.snd, hpieces] at hlen
    have hlt := (toInt32_spec (counted (s.splitOn d)).length).choose_spec.2.2
    rw [hlen]
    exact Int.toNat_le.2 (Int.le_of_lt_add_one hlt)
  · intro hle
    have hcount : toInt32 (counted (s.splitOn d)).length = (counted (s.splitOn d)).length :=
      toInt32_of_lt (Nat.lt_of_le_of_lt hle (by decide))
    rw [hcount] at hrun
    have hnul : ∀ c ∈ counted (s.splitOn d), 0 ∉ c := fun c hc h0 =>
      hs (hps.mem (counted_subset _ hc) h0)
    obtain ⟨m, hm⟩ := nulJoin_counted (s.splitOn d)
    obtain ⟨visited, hwalk, hpieces, hlast⟩ :=
      pieceWalk_pieces (p := 0) d (counted_ne_nil hps.ne_nil) hnul hm
    rw [Nat.zero_add] at hlast
    exact ⟨_, _, _, visited, hrun, hwalk, hpieces, hlast⟩

/-- A delimiter that no byte of the string is as a `char`: the string is read as one piece. -/
theorem splitVisits_noChar_iff (hs : 0 ∉ s) {delim : Int} (hdelim : ∀ c ∈ s, schar c ≠ delim) :
    SplitVisits s delim d ↔ d ∉ s := by
  have hrun : strSplitInt (cstrMem s) delim true = .ok (cstrMem s, 0, some 1) := by
    rw [strSplitInt, cstr_cstrMem hs, ok_bind, cstrMem, cells_append, splitLoopInt_skip hdelim]
    rfl
  have hwalk : pieceWalk (cstrMem s) (Int.toNat 1) 0 = .ok [(0, s)] := by
    rw [show Int.toNat 1 = 0 + 1 from rfl, pieceWalk, List.drop_zero, cstr_cstrMem hs]
    rfl
  constructor
  · rintro ⟨str, last, count, visited, h, hwalk', hpieces, -⟩
    rw [hrun] at h
    cases h
    rw [hwalk] at hwalk'
    cases hwalk'
    have hmem : s ∈ counted (s.splitOn d) := by
      rw [← hpieces]
      exact List.mem_singleton_self s
    exact (pieces_splitOn d s).notMem (counted_subset _ hmem)
  · intro hd
    refine ⟨_, _, _, _, hrun, hwalk, ?_, rfl⟩
    rw [List.splitOn_eq_singleton hd]
    rfl

end Visits

/-- **Splitting in place, counted.** When the walk over the pieces reads them all, the delimiter
    byte being passed as a `char` or as a number from 0 to 255: exactly if an `int` counts them and,
    passed as a number above 127, which no `char` is, the byte does not occur. -/
theorem strSplit_visits_iff {s : List UInt8} (hs : 0 ∉ s) {delim : Int} {d : UInt8}
    (hd : delim = schar d ∨ delim = d.toNat) :
    SplitVisits s delim d ↔
      (delim = schar d ∨ d ∉ s) ∧ (counted (s.splitOn d)).length ≤ intMax := by
  by_cases hchar : delim = schar d
  · subst hchar
    rw [splitVisits_char_iff hs]
    exact ⟨fun h => ⟨Or.inl rfl, h⟩, And.right⟩
  · have hnat := hd.resolve_left hchar
    have hdelim : ∀ c ∈ s, schar c ≠ delim := fun c _ heq => by
      have hc := c.toNat_lt
      have hlarge : ¬ d.toNat < 128 := fun hlt => hchar (by rw [hnat, schar, if_pos hlt])
      rw [hnat, schar] at heq
      split at heq <;> omega
    rw [splitVisits_noChar_iff hs hdelim]
    refine ⟨fun hmem => ⟨Or.inr hmem, ?_⟩, fun h => h.1.resolve_left hchar⟩
    have hone : (counted (s.splitOn d)).length = 1 := by
      rw [List.splitOn_eq_singleton hmem]
      rfl
    rw [hone]
    decide

/-- Two delimiters in a row, and one at the end. -/
theorem strSplit_visits_slashes : SplitVisits (bytes "a//b/") (schar slash) slash :=
  (strSplit_visits_iff (by decide) (Or.inl rfl)).2 ⟨Or.inl rfl, by decide⟩

theorem splitOn_slashes (n : Nat) :
    (List.replicate n slash ++ bytes "a").splitOn slash
      = List.replicate n [] ++ [bytes "a"] := by
  induction n with
  | zero => rfl
  | succ n ih =>
      have hcons : (slash :: (List.replicate n slash ++ bytes "a")).splitOn slash
          = [] :: (List.replicate n slash ++ bytes "a").splitOn slash :=
        List.splitOn_append_cons_self_of_not_mem List.not_mem_nil _
      rw [ih] at hcons
      exact hcons

/-- As many `/`s as the largest `int`, with a name behind them. -/
def manySlashes : List UInt8 := List.replicate intMax slash ++ bytes "a"

/-- There is a piece more than `*count` can count. -/
theorem strSplit_miscounts :
    0 ∉ manySlashes ∧ ¬ SplitVisits manySlashes (schar slash) slash := by
  have hnul : 0 ∉ manySlashes := by
    intro h
    rcases List.mem_append.1 h with h | h
    · exact absurd (List.eq_of_mem_replicate h) (by decide)
    · exact absurd h (by decide)
  refine ⟨hnul, fun hvisits => ?_⟩
  have hle := (splitVisits_char_iff hnul).1 hvisits
  have hcounted : counted (manySlashes.splitOn slash)
      = List.replicate intMax [] ++ [bytes "a"] := by
    rw [manySlashes, splitOn_slashes]
    exact counted_of_last (by simp) (by rw [List.getLast_append_singleton]; decide)
  rw [hcounted, List.length_append, List.length_replicate, List.length_singleton] at hle
  exact absurd hle (Nat.not_succ_le_self _)

end Ryze
