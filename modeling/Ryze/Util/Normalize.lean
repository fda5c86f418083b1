import Ryze.Util.Placement
import Ryze.Util.Split

set_option autoImplicit false

/-! # What `normalize_path` returns for a relative path

The components of the joined path are split off by NULs, pushed on and popped from a stack of
pointers, and written out again behind the base directory's scheme and host. The written string is
a prefix of the resolved path (`normalizePath_start`); it is all of it exactly if the counter `total`,
which subtracts the component in front of each `..`, comes out as if it had subtracted the component
that the `..` removes (`normalizePath_eq_iff`). That is so as long as the `int`s count: of more
components than that only some are read, and a longer result is not written to its end
(`normalizedString_wraps`). -/

namespace Ryze

open CLib Cutting LexicalPath

/-- A component: no `/` and no NUL in it. -/
def IsComponent (c : List UInt8) : Prop := slash ∉ c ∧ 0 ∉ c

theorem slashJoin_eq {cs : List (List UInt8)} (hne : cs ≠ []) :
    slashJoin cs = slash :: [slash].intercalate cs := by
  induction cs with
  | nil => exact absurd rfl hne
  | cons c cs ih =>
      cases cs with
      | nil => simp
      | cons d cs =>
          rw [slashJoin_cons, ih (by simp), List.intercalate_cons_cons]
          simp

/-- The text of the components without the first `/` reaches as far as their last one. -/
theorem slashJoin_length_le (cs : List (List UInt8)) :
    (slashJoin cs.dropLast).length ≤ ([slash].intercalate cs).length ∧
      (slashJoin cs).length ≤ ([slash].intercalate cs).length + 1 := by
  by_cases hne : cs = []
  · subst hne
    exact ⟨Nat.le_refl _, Nat.zero_le _⟩
  · have hlast := slashJoin_dropLast hne
    have hjoin := congrArg List.length (slashJoin_eq hne)
    rw [List.length_cons] at hjoin
    omega

theorem nul_not_mem_slashJoin {cs : List (List UInt8)} (hcs : ∀ c ∈ cs, 0 ∉ c) :
    0 ∉ slashJoin cs := by
  intro h
  obtain ⟨c, hc, h⟩ := List.mem_flatMap.1 h
  rcases List.mem_cons.1 h with h | h
  · exact absurd h (by decide)
  · exact hcs c hc h

theorem nul_not_mem_intercalate {cs : List (List UInt8)} (hne : cs ≠ []) (hcs : ∀ c ∈ cs, 0 ∉ c) :
    0 ∉ [slash].intercalate cs := by
  intro h
  have hjoin := nul_not_mem_slashJoin hcs
  rw [slashJoin_eq hne] at hjoin
  exact hjoin (List.mem_cons_of_mem _ h)

/-! ## Splitting -/

/-- The components that are read, `*count` being their number as an `int`. -/
def readComponents (cs : List (List UInt8)) : List (List UInt8) := cs.take (toInt32 cs.length).toNat

section Read

variable {cs : List (List UInt8)}

theorem readComponents_length : (readComponents cs).length = (toInt32 cs.length).toNat := by
  rw [readComponents, List.length_take, Nat.min_eq_left (toInt32_toNat_le _)]

theorem readComponents_length_le (cs : List (List UInt8)) :
    (readComponents cs).length ≤ intMax := by
  rw [readComponents_length]
  exact Int.toNat_le.2 (toInt32_le_intMax _)

/-- Components that an `int` counts are all read. -/
theorem readComponents_eq (h : cs.length ≤ intMax) : readComponents cs = cs := by
  rw [readComponents, toInt32_of_lt (Nat.lt_of_le_of_lt h (by decide)), Int.toNat_natCast,
    List.take_length]

/-- Of up to `2 ^ 32` more nothing is read. -/
theorem readComponents_nil (h : intMax < cs.length) (hlt : cs.length ≤ 2 ^ 32) :
    readComponents cs = [] := by
  have hneg : toInt32 cs.length ≤ 0 := by
    obtain ⟨k, hk, hlo, hhi⟩ := toInt32_spec cs.length
    simp only [intMax] at h
    omega
  rw [readComponents, Int.toNat_of_nonpos hneg, List.take_zero]

theorem readComponents_subset (cs : List (List UInt8)) : readComponents cs ⊆ cs :=
  List.take_subset _ _

end Read

theorem strSplit_components {cs : List (List UInt8)} (hne : cs ≠ [])
    (hcs : ∀ c ∈ cs, IsComponent c) :
    ∃ last, strSplitInt (cells ([slash].intercalate cs ++ [0])) (schar slash) true
      = .ok (cells (nulJoin cs), last, some (toInt32 (counted cs).length)) :=
  ⟨_, strSplitInt_pieces (nul_not_mem_intercalate hne fun c hc => (hcs c hc).2)
    (pieces_intercalate hne fun c hc => (hcs c hc).1) true⟩

/-! ## Joining -/

section Joined

variable {path basedir : List UInt8} {start : Nat}

/-- The block `str` in front of the splitting. -/
theorem joinedPath_eq (hstart : start < basedir.length)
    (hmax : basedir.length + path.length + 2 ≤ ptrdiffMax) :
    joinedPath path basedir start
      = .ok (cells (basedir.drop (start + 1) ++ slash :: path ++ [0])) := by
  have hptr : ptrdiffMax = 2 ^ 63 - 1 := rfl
  have hmod : sizeMod = 2 ^ 64 := rfl
  have hlen : sizeAdd path.length basedir.length = path.length + basedir.length :=
    sizeAdd_of_lt (by omega)
  have hend : sizeSub (path.length + basedir.length) start
      = path.length + (basedir.length - start) := by
    rw [sizeSub_of_le (by omega) (by omega)]
    omega
  have hsize : sizeAdd (path.length + (basedir.length - start)) 1
      = path.length + (basedir.length - start) + 1 := sizeAdd_of_lt (by omega)
  have hpath : sizeSub basedir.length start = basedir.length - start :=
    sizeSub_of_le (by omega) (by omega)
  have hrest : sizeSub (basedir.length - start) 1 = basedir.length - (start + 1) := by
    rw [sizeSub_of_le (by omega) (by omega)]
    omega
  have htake : ((cstrMem basedir).drop (start + 1)).take (basedir.length - (start + 1))
      = cells (basedir.drop (start + 1)) := by
    rw [cstrMem, cells_append, List.drop_append_of_le_length (by rw [cells_length]; omega),
      cells, ← List.map_drop]
    exact List.take_left' (by rw [List.length_map, List.length_drop])
  have hdrop : (basedir.drop (start + 1)).length = basedir.length - (start + 1) :=
    List.length_drop
  have htakePath : (cstrMem path).take path.length = cells path := by
    rw [cstrMem, cells_append]
    exact List.take_left' (cells_length path)
  simp only [joinedPath, hlen, hend, hsize, hpath, hrest]
  rw [malloc_eq_filled (by omega), ok_bind,
    memcpy_filled (show 0 = ([] : List UInt8).length from rfl) _ _ htake hdrop.symm
      (by rw [hdrop, List.length_nil]; omega), ok_bind, List.nil_append,
    store_filled (by rw [hdrop]) _ (by rw [hdrop]; omega), ok_bind,
    memcpy_filled (by rw [List.length_append, hdrop, List.length_singleton]; omega) _ _ htakePath
      rfl (by rw [List.length_append, hdrop, List.length_singleton]; omega), ok_bind,
    store_filled
      (by rw [List.length_append, List.length_append, hdrop, List.length_singleton]; omega) _
      (by rw [List.length_append, List.length_append, hdrop, List.length_singleton]; omega)]
  refine congrArg Except.ok ?_
  have hfull : path.length + (basedir.length - start) + 1
      = (basedir.drop (start + 1) ++ [slash] ++ path ++ [0]).length := by
    simp only [List.length_append, hdrop, List.length_singleton]
    omega
  rw [hfull, filled_full]
  simp

end Joined

/-! ## The component stack -/

/-- The strings of `kept` are on the stack, `str` being the block they point into. -/
def StackHolds (str : List (Option UInt8)) (st : StackState) (kept : List (List UInt8)) : Prop :=
  ∃ offs : List Nat, st.index = offs.length ∧ st.stack.take offs.length = cells offs ∧
    offs.map (fun p => cstr (str.drop p)) = kept.map .ok

theorem StackHolds.index {str : List (Option UInt8)} {st : StackState} {kept : List (List UInt8)}
    (h : StackHolds str st kept) : st.index = kept.length := by
  obtain ⟨offs, hindex, _, hstr⟩ := h
  have hlen := congrArg List.length hstr
  rw [List.length_map, List.length_map] at hlen
  rw [hindex, hlen]

theorem StackHolds.length_le {str : List (Option UInt8)} {st : StackState}
    {kept : List (List UInt8)} (h : StackHolds str st kept) : kept.length ≤ st.stack.length := by
  obtain ⟨offs, _, htake, hstr⟩ := h
  have hlen := congrArg List.length hstr
  have htakeLen := congrArg List.length htake
  rw [List.length_map, List.length_map] at hlen
  rw [List.length_take, cells_length] at htakeLen
  omega

/-- Pushing the component at `p`. -/
theorem StackHolds.push {str : List (Option UInt8)} {st : StackState} {kept : List (List UInt8)}
    (h : StackHolds str st kept) (hroom : kept.length < st.stack.length)
    (hint : st.stack.length ≤ intMax) {p : Nat} {s : List UInt8} (hs : cstr (str.drop p) = .ok s)
    (total : Nat) :
    ∃ stack, store st.stack st.index p = .ok stack ∧ stack.length = st.stack.length ∧
      StackHolds str ⟨toInt32 (st.index + 1), stack, total⟩ (kept ++ [s]) := by
  have hidx := h.index
  have hnext : toInt32 (st.index + 1) = st.index + 1 := by
    rw [hidx]
    exact toInt32_of_lt (n := kept.length + 1) (by simp only [intMax] at hint; omega)
  rw [hnext]
  obtain ⟨offs, hindex, htake, hstr⟩ := h
  have hoffs : offs.length = kept.length := by omega
  refine ⟨st.stack.set st.index.toNat (some p), ?_, List.length_set, offs ++ [p], ?_, ?_, ?_⟩
  · rw [store, if_pos ⟨by omega, by omega⟩]
  · rw [List.length_append, List.length_singleton, hindex]
    rfl
  · have hlt : offs.length < st.stack.length := by omega
    rw [hindex, Int.toNat_natCast, List.length_append, List.length_singleton,
      List.take_succ_eq_append_getElem (by rw [List.length_set]; exact hlt), List.getElem_set_self,
      List.take_set_of_le (Nat.le_refl _), htake, cells_append]
    rfl
  · rw [List.map_append, List.map_append, hstr, List.map_singleton, List.map_singleton, hs]

/-- Popping leaves the string's pointer in its cell, behind the end of the stack. -/
theorem StackHolds.pop {str : List (Option UInt8)} {st : StackState} {kept : List (List UInt8)}
    (h : StackHolds str st kept) (hint : st.stack.length ≤ intMax) (hne : kept ≠ []) (total : Nat) :
    StackHolds str ⟨toInt32 (st.index - 1), st.stack, total⟩ kept.dropLast := by
  have hidx := h.index
  have hcap := h.length_le
  have hpos := List.length_pos_of_ne_nil hne
  have hnext : toInt32 (st.index - 1) = st.index - 1 := by
    obtain ⟨n, hn⟩ : ∃ n : Nat, st.index - 1 = n := ⟨kept.length - 1, by omega⟩
    rw [hn]
    exact toInt32_of_lt (by simp only [intMax] at hint; omega)
  rw [hnext]
  obtain ⟨offs, hindex, htake, hstr⟩ := h
  refine ⟨offs.dropLast, ?_, ?_, ?_⟩
  · show st.index - 1 = _
    rw [List.length_dropLast, hindex]
    omega
  · have hcells : cells offs.dropLast = (cells offs).take (offs.length - 1) := by
      rw [List.dropLast_eq_take, cells, cells, List.map_take]
    rw [List.length_dropLast, hcells, ← htake, List.take_take]
    congr 1
    omega
  · rw [List.map_dropLast, hstr, List.map_dropLast]

theorem stackStep_dotdot {str : List (Option UInt8)} {p prev : Nat} {q : List UInt8}
    (hprev : cstr (str.drop prev) = .ok q) (st : StackState) :
    stackStep str p prev (bytes "..") st
      = .ok ⟨toInt32 (st.index - 1), st.stack, sizeSub st.total (sizeAdd q.length 1)⟩ := by
  rw [stackStep, if_neg (by simp), hprev]
  rfl

theorem stackStep_dot (str : List (Option UInt8)) (p prev : Nat) (st : StackState) :
    stackStep str p prev (bytes ".") st = .ok st := by
  rw [stackStep, if_pos (by decide), if_neg (by simp)]
  rfl

theorem stackStep_push (str : List (Option UInt8)) {p : Nat} (prev : Nat) {c : List UInt8}
    {st : StackState} {stack : List (Option Nat)} (hdd : c ≠ bytes "..") (hd : c ≠ bytes ".")
    (hstore : store st.stack st.index p = .ok stack) :
    stackStep str p prev c st
      = .ok ⟨toInt32 (st.index + 1), stack, sizeAdd st.total (sizeAdd c.length 1)⟩ := by
  rw [stackStep, if_pos hdd, if_pos hd, hstore]
  rfl

/-- Reading the components in order does to the stack what resolution does to the list of kept
    components; `total` grows by what is pushed and shrinks by what stands in front of each `..`. -/
theorem stackLoop_spec (str : List (Option UInt8)) {cs kept kept' : List (List UInt8)}
    (hcs : ∀ c ∈ cs, 0 ∉ c) (hres : resolve (bytes ".") (bytes "..") kept cs = some kept')
    {p prev : Nat} {q : List UInt8} {m : List (Option UInt8)} {st : StackState}
    (hp : str.drop p = cells (nulJoin cs) ++ m) (hprev : cstr (str.drop prev) = .ok q)
    (hst : StackHolds str st kept) (hroom : kept.length + cs.length ≤ st.stack.length)
    (hint : st.stack.length ≤ intMax) :
    ∃ st', stackLoop str cs.length p prev st = .ok st' ∧ StackHolds str st' kept' ∧
      (st'.total + weight (fun c => c.length + 1) (before (bytes "..") q cs)) % sizeMod
        = (st.total + weight (fun c => c.length + 1) (pushed (bytes ".") (bytes "..") cs)) % sizeMod
      ∧ (st.total < sizeMod → st'.total < sizeMod) := by
  induction cs generalizing kept p prev q st with
  | nil =>
      cases hres
      exact ⟨st, rfl, hst, rfl, id⟩
  | cons c cs ih =>
      obtain ⟨k, hk, hrest⟩ := resolve_cons hres
      obtain ⟨hc, hnext⟩ := component_at (hcs c (List.mem_cons_self ..)) hp
      have hcs' : ∀ d ∈ cs, 0 ∉ d := fun d hd => hcs d (List.mem_cons_of_mem _ hd)
      rw [List.length_cons] at hroom
      rcases resolveStep_cases hk with ⟨hdd, hne, rfl⟩ | ⟨hdd, hd, rfl⟩ | ⟨hdd, hd, rfl⟩
      · have hstep := hdd ▸ stackStep_dotdot (p := p) hprev st
        have hpop := hst.pop hint hne (sizeSub st.total (sizeAdd q.length 1))
        obtain ⟨st', hloop, hst', htotal, hlt⟩ := ih hcs' hrest hnext hc hpop
          (by simp only [List.length_dropLast]; omega) hint
        refine ⟨st', ?_, hst', ?_, fun h => hlt ?_⟩
        · rw [List.length_cons, stackLoop, hc, ok_bind, hstep, ok_bind, hloop]
        · rw [before, pushed, if_pos hdd, if_pos hdd, weight_cons]
          simp only [sizeSub, sizeAdd, sizeMod] at htotal ⊢
          omega
        · exact Nat.mod_lt _ (by decide)
      · have hstep := hd ▸ stackStep_dot str p prev st
        obtain ⟨st', hloop, hst', htotal, hlt⟩ := ih hcs' hrest hnext hc hst (by omega) hint
        refine ⟨st', ?_, hst', ?_, hlt⟩
        · rw [List.length_cons, stackLoop, hc, ok_bind, hstep, ok_bind, hloop]
        · rw [before, pushed, if_neg hdd, if_neg hdd, if_pos hd]
          exact htotal
      · obtain ⟨stack, hstore, hlen, hpush⟩ :=
          hst.push (by omega) hint hc (sizeAdd st.total (sizeAdd c.length 1))
        have hstep := stackStep_push str prev hdd hd hstore
        obtain ⟨st', hloop, hst', htotal, hlt⟩ := ih hcs' hrest hnext hc hpush
          (by simp only [List.length_append, List.length_singleton]; omega)
          (Nat.le_trans (Nat.le_of_eq hlen) hint)
        refine ⟨st', ?_, hst', ?_, fun h => hlt ?_⟩
        · rw [List.length_cons, stackLoop, hc, ok_bind, hstep, ok_bind, hloop]
        · rw [before, pushed, if_neg hdd, if_neg hdd, if_neg hd, weight_cons]
          simp only [sizeAdd, sizeMod] at htotal ⊢
          omega
        · exact Nat.mod_lt _ (by decide)

/-! ## Writing the result -/

/-- The first pointer of those from `stack[i]` on, and the others. -/
theorem stack_next {stack : List (Option Nat)} {i p : Nat} {offs : List Nat}
    (h : (stack.drop i).take (p :: offs).length = cells (p :: offs)) :
    loadCell stack i = .ok p ∧ (stack.drop (i + 1)).take offs.length = cells offs := by
  constructor
  · have hfirst := congrArg List.head? h
    rw [List.length_cons, List.head?_take, if_neg (by omega), List.head?_drop, cells_cons,
      List.head?_cons] at hfirst
    rw [loadCell, hfirst]
  · have hrest := congrArg (List.drop 1) h
    rw [List.drop_take, List.drop_drop, List.length_cons, Nat.add_sub_cancel] at hrest
    exact hrest

/-- The loop places the strings that the pointers on the stack point to. -/
theorem resultLoop_eq {str : List (Option UInt8)} {stack : List (Option Nat)} {offs : List Nat}
    {i : Nat} (hstack : (stack.drop i).take offs.length = cells offs) (j : Int)
    (b : List (Option UInt8)) :
    resultLoop str stack offs.length i j b = placeAll 0 str offs j b := by
  induction offs generalizing i j b with
  | nil => rfl
  | cons p offs ih =>
      obtain ⟨hhead, htail⟩ := stack_next hstack
      simp only [List.length_cons, resultLoop, hhead, ok_bind, placeAll, place, bind_assoc,
        toInt32_add, ih htail, Nat.add_zero]

/-- The string in a block that was filled with `full` and got a NUL at `n`, its last cell. -/
theorem cstr_terminated {full s : List UInt8} {n : Nat} {b : List (Option UInt8)}
    (hfull : 0 ∉ full) (hroom : full.length ≤ n + 1)
    (hstore : store (filled (n + 1) full) n 0 = .ok b) (hs : cstr b = .ok s) :
    s = full.take n ∧ n ≤ full.length := by
  have hlen := filled_length hroom
  rw [store, if_pos ⟨by omega, by omega⟩, Int.toNat_natCast] at hstore
  cases hstore
  by_cases hle : n ≤ full.length
  · have hcells : (filled (n + 1) full).set n (some 0) = cells (full.take n) ++ [some 0] := by
      have htake : (filled (n + 1) full).take n = cells (full.take n) := by
        rw [filled, List.take_append_of_le_length (by rw [cells_length]; exact hle), cells, cells,
          List.map_take]
      rw [List.set_eq_take_append_cons_drop, if_pos (by omega), htake,
        List.drop_eq_nil_of_le (by omega)]
    have hnul : 0 ∉ full.take n := fun h => hfull (List.mem_of_mem_take h)
    rw [hcells, cstr_cells _ hnul] at hs
    cases hs
    exact ⟨rfl, hle⟩
  · obtain ⟨k, hk⟩ : ∃ k, n + 1 - full.length = k + 2 := ⟨n - 1 - full.length, by omega⟩
    rw [filled, hk, List.set_append_right _ _ (by rw [cells_length]; omega), cells_length,
      show n - full.length = k + 1 by omega, List.replicate_succ, List.set_cons_succ,
      cstr_uninit _ hfull] at hs
    cases hs

/-! ## The whole function -/

/-- The string that `normalize_path` returns. -/
def normalizedString (path basedir : List UInt8) : CRun (List UInt8) := do
  let str ← normalizePath path basedir
  cstr str

/-- A relative path and a base directory which, joined behind the base's first `start` bytes, have the
    components `cs`. -/
structure JoinsTo (path basedir : List UInt8) (start : Nat) (cs : List (List UInt8)) : Prop where
  relative : isAbsolutePath path = .ok false
  start_eq : pathStart basedir (schemeLen basedir) = start
  start_lt : start < basedir.length
  joined : basedir.drop (start + 1) ++ slash :: path = [slash].intercalate cs
  components : ∀ c ∈ cs, IsComponent c
  ne : cs ≠ []
  last_ne : cs.getLast ne ≠ []
  base_nul : 0 ∉ basedir
  bound : basedir.length + path.length + 2 ≤ ptrdiffMax

/-- A relative path and a base directory of whose joined path the components `cs` are read, which
    stand at the front of the block `str`. -/
structure SplitsTo (path basedir : List UInt8) (start : Nat) (str : List (Option UInt8))
    (cs : List (List UInt8)) : Prop where
  relative : isAbsolutePath path = .ok false
  start_eq : pathStart basedir (schemeLen basedir) = start
  start_lt : start < basedir.length
  split : ∃ block last count, joinedPath path basedir start = .ok block ∧
    strSplitInt block (schar slash) true = .ok (str, last, some count) ∧ count.toNat = cs.length
  holds : ∃ m, str = cells (nulJoin cs) ++ m
  components : ∀ c ∈ cs, IsComponent c
  length_le : cs.length ≤ intMax
  weight_le : start + weight (fun c => c.length + 1) cs ≤ basedir.length + path.length + 1
  base_nul : 0 ∉ basedir
  bound : basedir.length + path.length + 2 ≤ ptrdiffMax

theorem nulJoin_read (cs : List (List UInt8)) :
    ∃ m, cells (nulJoin cs) = cells (nulJoin (readComponents (counted cs))) ++ m := by
  obtain ⟨m, hm⟩ := nulJoin_counted cs
  have hsplit : nulJoin (counted cs) = nulJoin (readComponents (counted cs))
      ++ nulJoin ((counted cs).drop (toInt32 (counted cs).length).toNat) := by
    rw [nulJoin, nulJoin, nulJoin, ← List.flatMap_append, readComponents, List.take_append_drop]
  exact ⟨_, by rw [hm, hsplit, cells_append, List.append_assoc]⟩

theorem weight_read_le (cs : List (List UInt8)) :
    weight (fun c => c.length + 1) (readComponents (counted cs))
      ≤ weight (fun c => c.length + 1) cs := by
  have hread : weight (fun c => c.length + 1) (readComponents (counted cs))
      ≤ weight (fun c => c.length + 1) (counted cs) := by
    conv_rhs => rw [← List.take_append_drop (toInt32 (counted cs).length).toNat (counted cs)]
    rw [weight_append]
    exact Nat.le_add_right _ _
  refine Nat.le_trans hread ?_
  rcases counted_cases cs with h | h
  · exact Nat.le_of_eq (by rw [h])
  · conv_rhs => rw [h, weight_append]
    exact Nat.le_add_right _ _

theorem splitsTo_read {path basedir : List UInt8} {start : Nat} {cs : List (List UInt8)}
    (hrel : isAbsolutePath path = .ok false) (hstart : pathStart basedir (schemeLen basedir) = start)
    (hlt : start < basedir.length)
    (hjoined : basedir.drop (start + 1) ++ slash :: path = [slash].intercalate cs)
    (hcs : ∀ c ∈ cs, IsComponent c) (hne : cs ≠ []) (hnul : 0 ∉ basedir)
    (hbound : basedir.length + path.length + 2 ≤ ptrdiffMax) :
    SplitsTo path basedir start (cells (nulJoin cs)) (readComponents (counted cs)) where
  relative := hrel
  start_eq := hstart
  start_lt := hlt
  split := by
    obtain ⟨last, hsplit⟩ := strSplit_components hne hcs
    rw [← hjoined] at hsplit
    exact ⟨_, last, _, joinedPath_eq hlt hbound, hsplit, readComponents_length.symm⟩
  holds := nulJoin_read cs
  components := fun c hc => hcs c (counted_subset cs (readComponents_subset _ hc))
  length_le := readComponents_length_le _
  weight_le := by
    have hle := weight_read_le cs
    have hlen := congrArg List.length hjoined
    have hjoin := slashJoin_length cs
    rw [slashJoin_eq hne, List.length_cons] at hjoin
    rw [List.length_append, List.length_drop, List.length_cons] at hlen
    omega
  base_nul := hnul
  bound := hbound

theorem JoinsTo.splits {path basedir : List UInt8} {start : Nat} {cs : List (List UInt8)}
    (h : JoinsTo path basedir start cs) :
    SplitsTo path basedir start (cells (nulJoin cs)) (readComponents cs) := by
  have hsplit := splitsTo_read h.relative h.start_eq h.start_lt h.joined h.components h.ne
    h.base_nul h.bound
  rwa [counted_of_last h.ne h.last_ne] at hsplit

/-- The end of `normalize_path`, on a stack with the pointers `offs`. -/
def writePlaces (basedir : List UInt8) (start total : Nat) (str : List (Option UInt8))
    (offs : List Nat) : CRun (List (Option UInt8)) := do
  let result ← malloc (sizeAdd total 1)
  let result ← memcpy result 0 (cstrMem basedir) start
  let result ← placeAll 0 str offs (toInt32 start) result
  store result total 0

section Run

variable {path basedir : List UInt8} {start : Nat} {str : List (Option UInt8)}
  {cs kept : List (List UInt8)}

/-- The first component, which `prev` points to first. -/
theorem SplitsTo.first (h : SplitsTo path basedir start str cs) (hne : cs ≠ []) :
    cstr (str.drop 0) = .ok (cs.headD []) := by
  obtain ⟨m, hm⟩ := h.holds
  obtain ⟨c, cs', rfl⟩ := List.exists_cons_of_ne_nil hne
  exact (component_at (h.components c (List.mem_cons_self ..)).2 (p := 0) hm).1

theorem headD_le (cs : List (List UInt8)) :
    (cs.headD []).length ≤ weight (fun c => c.length + 1) cs := by
  cases cs with
  | nil => exact Nat.le_refl _
  | cons c cs =>
      rw [List.headD_cons, weight_cons]
      omega

theorem basedir_take {start : Nat} (hstart : start < basedir.length) :
    (cstrMem basedir).take start = cells (basedir.take start) := by
  rw [cstrMem, cells_append, List.take_append_of_le_length (by rw [cells_length]; omega), cells,
    cells, List.map_take]

/-- The function up to the end of the loop over the components. -/
theorem SplitsTo.stack (h : SplitsTo path basedir start str cs)
    (hres : resolve (bytes ".") (bytes "..") [] cs = some kept) :
    ∃ st, stackLoop str cs.length 0 0 ⟨0, List.replicate cs.length none, 0⟩ = .ok st ∧
      StackHolds str st kept ∧
      (st.total + weight (fun c => c.length + 1) (before (bytes "..") (cs.headD []) cs)) % sizeMod
        = weight (fun c => c.length + 1) (pushed (bytes ".") (bytes "..") cs) % sizeMod ∧
      st.total < sizeMod := by
  have hempty : StackHolds str ⟨0, List.replicate cs.length none, 0⟩ [] := ⟨[], rfl, rfl, rfl⟩
  by_cases hne : cs = []
  · subst hne
    cases hres
    exact ⟨_, rfl, hempty, rfl, by decide⟩
  · obtain ⟨m, hm⟩ := h.holds
    obtain ⟨st, hloop, hst, htotal, hlt⟩ :=
      stackLoop_spec str (fun c hc => (h.components c hc).2) hres (p := 0) (m := m)
        (q := cs.headD []) hm (h.first hne) hempty (by simp) (by simpa using h.length_le)
    rw [Nat.zero_add] at htotal
    exact ⟨st, hloop, hst, htotal, hlt (show 0 < sizeMod by decide)⟩

/-- The function from the loop over the components on. -/
theorem SplitsTo.run (h : SplitsTo path basedir start str cs) :
    normalizePath path basedir = (do
      let st ← stackLoop str cs.length 0 0 ⟨0, List.replicate cs.length none, 0⟩
      let result ← malloc (sizeAdd (sizeAdd st.total start) 1)
      let result ← memcpy result 0 (cstrMem basedir) start
      let result ← resultLoop str st.stack st.index.toNat 0 (toInt32 start) result
      store result (sizeAdd st.total start) 0) := by
  obtain ⟨block, last, count, hjoin, hsplit, hcount⟩ := h.split
  have hmalloc : (malloc cs.length : CRun (List (Option Nat)))
      = .ok (List.replicate cs.length none) := by
    rw [malloc, if_pos (Nat.le_trans h.length_le (by decide))]
  simp only [normalizePath, h.relative, ok_bind, Bool.false_eq_true, if_false, h.start_eq, hjoin,
    hsplit, Option.getD_some, hcount, hmalloc]

/-- The function behind the loop over the components. -/
theorem SplitsTo.result (h : SplitsTo path basedir start str cs) {st : StackState}
    (hloop : stackLoop str cs.length 0 0 ⟨0, List.replicate cs.length none, 0⟩ = .ok st)
    (hst : StackHolds str st kept) :
    ∃ offs, offs.map (fun p => cstr (str.drop p)) = kept.map .ok ∧
      normalizePath path basedir = writePlaces basedir start (sizeAdd st.total start) str offs := by
  obtain ⟨offs, hindex, hoffs, hstr⟩ := hst
  refine ⟨offs, hstr, ?_⟩
  rw [h.run, hloop, ok_bind, hindex, Int.toNat_natCast]
  simp only [writePlaces, resultLoop_eq (i := 0) (by rw [List.drop_zero]; exact hoffs)]

/-- What a result block that could be had and was written tells of its size. -/
theorem writePlaces_ok {total : Nat} {offs : List Nat} {b : List (Option UInt8)}
    (hstr : offs.map (fun p => cstr (str.drop p)) = kept.map .ok)
    (h : writePlaces basedir start total str offs = .ok b) :
    sizeAdd total 1 ≤ ptrdiffMax ∧ start ≤ sizeAdd total 1 ∧ total < sizeAdd total 1 ∧
      PlacedInside 0 (sizeAdd total 1) start kept := by
  obtain ⟨m, hmalloc, h⟩ := bind_eq_ok.1 h
  obtain ⟨m₁, hcopied, h⟩ := bind_eq_ok.1 h
  obtain ⟨m₂, hplaced, h⟩ := bind_eq_ok.1 h
  obtain ⟨hle, hsize⟩ : sizeAdd total 1 ≤ ptrdiffMax ∧ m.length = sizeAdd total 1 := by
    rw [malloc] at hmalloc
    split at hmalloc
    · next hle =>
        cases hmalloc
        exact ⟨hle, List.length_replicate⟩
    · cases hmalloc
  obtain ⟨hlen₁, hroom⟩ := memcpy_length hcopied
  have hin := (placeAll_ok_iff (Nat.zero_le 1) hstr start).1 ⟨m₂, hplaced⟩
  have hlen₂ := placeAll_length (toInt32_le_intMax _) hstr hplaced
  rw [hlen₁, hsize] at hin
  rw [store] at h
  split at h
  · next hlast => exact ⟨hle, by omega, by omega, hin⟩
  · cases h

/-- A result block that can be had and holds all that is written. -/
theorem writePlaces_of_placed {total : Nat} {offs : List Nat} (hstart : start < basedir.length)
    (hstr : offs.map (fun p => cstr (str.drop p)) = kept.map .ok)
    (hle : sizeAdd total 1 ≤ ptrdiffMax) (hroom : start ≤ sizeAdd total 1)
    (hlast : total < sizeAdd total 1) (hin : PlacedInside 0 (sizeAdd total 1) start kept) :
    ∃ b, writePlaces basedir start total str offs = .ok b ∧ some 0 ∈ b := by
  have hlen : (basedir.take start).length = start := by
    rw [List.length_take]
    omega
  have hsize : (filled (sizeAdd total 1) (basedir.take start)).length = sizeAdd total 1 :=
    filled_length (by rw [hlen]; exact hroom)
  obtain ⟨m, hplaced⟩ := (placeAll_ok_iff (Nat.zero_le 1) hstr start).2 (by rw [hsize]; exact hin)
  have hlen₂ := placeAll_length (toInt32_le_intMax _) hstr hplaced
  refine ⟨m.set total (some 0), ?_, List.mem_set (by omega) _⟩
  rw [writePlaces, malloc_eq_filled hle, ok_bind,
    memcpy_filled (show 0 = ([] : List UInt8).length from rfl) _ _ (basedir_take hstart) hlen.symm
      (by rw [hlen, List.length_nil]; omega), ok_bind, List.nil_append, hplaced, ok_bind, store,
    if_pos ⟨Int.natCast_nonneg _, by rw [Int.toNat_natCast]; omega⟩, Int.toNat_natCast]

/-- Components that an `int` places are written one behind the other. -/
theorem writePlaces_eq {total : Nat} {offs : List Nat} (hstart : start < basedir.length)
    (hstr : offs.map (fun p => cstr (str.drop p)) = kept.map .ok) (hplaces : IntPlaces start kept)
    (hle : sizeAdd total 1 ≤ ptrdiffMax)
    (hfit : start + (slashJoin kept).length ≤ sizeAdd total 1) :
    writePlaces basedir start total str offs
      = store (filled (sizeAdd total 1) (basedir.take start ++ slashJoin kept)) total 0 := by
  have hlen : (basedir.take start).length = start := by
    rw [List.length_take]
    omega
  have hwrite := placeAll_filled (w := basedir.take start) (n := sizeAdd total 1) hstr
    (by rwa [hlen]) (by rw [hlen]; exact hfit)
  rw [hlen] at hwrite
  rw [writePlaces, malloc_eq_filled hle, ok_bind,
    memcpy_filled (show 0 = ([] : List UInt8).length from rfl) _ _ (basedir_take hstart) hlen.symm
      (by rw [hlen, List.length_nil]; omega), ok_bind, List.nil_append, hwrite]
  rfl

/-- If the last component stands behind more than `2 ^ 31 - 2` bytes, the string ends in front of the
    end of the resolved path. -/
theorem writePlaces_wraps {total : Nat} {offs : List Nat} {s : List UInt8}
    (hstr : offs.map (fun p => cstr (str.drop p)) = kept.map .ok) (hkept : kept ≠ [])
    (hlong : intMax ≤ start + (slashJoin kept.dropLast).length)
    (hs : (writePlaces basedir start total str offs >>= cstr) = .ok s) {k : Nat}
    (hlast : start + (slashJoin kept.dropLast).length ≤ k)
    (hend : start + (slashJoin kept).length ≤ k + 2) : s.length ≤ k := by
  obtain ⟨b, hb, hs⟩ := bind_eq_ok.1 hs
  obtain ⟨m, hmalloc, hb⟩ := bind_eq_ok.1 hb
  obtain ⟨m₁, hcopy, hb⟩ := bind_eq_ok.1 hb
  obtain ⟨m₂, hplaced, hb⟩ := bind_eq_ok.1 hb
  have hloop : m₂[k]? = m₁[k]? := by
    obtain ⟨q, hq, _, hint⟩ := toInt32_spec start
    simp only [intMax] at hlong
    by_cases hwrap : start < 2147483648
    · have hsame : toInt32 start = start := by omega
      exact placeAll_wraps (Nat.zero_le 1) (toInt32_le_intMax _) hstr hkept hplaced
        (by simp only [intMax]; omega) (by omega) (by omega)
    · exact placeAll_frame (toInt32_le_intMax _) hstr hplaced (by omega)
  have hcell : m₂[k]? = some none ∨ m₂[k]? = none := by
    rw [hloop, getElem?_memcpy hcopy (Or.inr (by omega))]
    rw [malloc] at hmalloc
    split at hmalloc
    · cases hmalloc
      rw [List.getElem?_replicate]
      split
      · exact Or.inl rfl
      · exact Or.inr rfl
    · cases hmalloc
  by_contra hlt
  obtain ⟨hget, hne⟩ := getElem?_cstr hs (List.getElem?_eq_getElem (by omega : k < s.length))
  rcases getElem?_store hb k with heq | ⟨_, heq⟩
  · rw [heq] at hget
    rcases hcell with hcell | hcell
    · rw [hcell] at hget
      cases hget
    · rw [hcell] at hget
      cases hget
  · rw [heq, Option.some.injEq, Option.some.injEq] at hget
    exact hne hget.symm

/-- The function up to `total`, and what is left of it from there. -/
theorem normalizePath_run (h : SplitsTo path basedir start str cs)
    (hres : resolve (bytes ".") (bytes "..") [] cs = some kept) :
    ∃ total offs, total < sizeMod ∧
      (total + weight (fun c => c.length + 1) (before (bytes "..") (cs.headD []) cs)) % sizeMod
        = (start + weight (fun c => c.length + 1) (pushed (bytes ".") (bytes "..") cs)) % sizeMod ∧
      offs.map (fun p => cstr (str.drop p)) = kept.map .ok ∧
      normalizePath path basedir = writePlaces basedir start total str offs := by
  obtain ⟨st, hloop, hst, htotal, _⟩ := h.stack hres
  obtain ⟨offs, hstr, hrun⟩ := h.result hloop hst
  refine ⟨sizeAdd st.total start, offs, Nat.mod_lt _ (by decide), ?_, hstr, hrun⟩
  simp only [sizeAdd, sizeMod] at htotal ⊢
  omega

/-- What the written string can be: the first `total` bytes of the resolved path. -/
theorem writePlaces_string {total : Nat} {offs : List Nat} {s : List UInt8}
    (hstart : start < basedir.length)
    (hstr : offs.map (fun p => cstr (str.drop p)) = kept.map .ok) (hplaces : IntPlaces start kept)
    (htotal : total < sizeMod) (hfull : 0 ∉ basedir.take start ++ slashJoin kept)
    (hlen : (basedir.take start ++ slashJoin kept).length = start + (slashJoin kept).length)
    (hs : (writePlaces basedir start total str offs >>= cstr) = .ok s) :
    s = (basedir.take start ++ slashJoin kept).take total ∧
      total ≤ (basedir.take start ++ slashJoin kept).length := by
  have hmod : sizeMod = 2 ^ 64 := rfl
  have hptr : ptrdiffMax = 2 ^ 63 - 1 := rfl
  obtain ⟨b, hb, hs⟩ := bind_eq_ok.1 hs
  obtain ⟨hle, hroom, hlast, hin⟩ := writePlaces_ok hstr hb
  have hfit : start + (slashJoin kept).length ≤ sizeAdd total 1 := by
    rcases (placedInside_iff hplaces).1 hin with hnil | hfit
    · rw [hnil, slashJoin_nil, List.length_nil]
      exact hroom
    · exact hfit
  rw [writePlaces_eq hstart hstr hplaces hle hfit] at hb
  -- were `total` the largest `size_t`, the block would have no cell at all
  have hwrap : total + 1 < sizeMod := by
    simp only [sizeAdd, sizeMod] at *
    omega
  rw [sizeAdd_of_lt hwrap] at hb hfit
  exact cstr_terminated hfull (by omega) hb hs

theorem writePlaces_full {total : Nat} {offs : List Nat} (hstart : start < basedir.length)
    (hstr : offs.map (fun p => cstr (str.drop p)) = kept.map .ok) (hplaces : IntPlaces start kept)
    (hfull : 0 ∉ basedir.take start ++ slashJoin kept)
    (hlen : (basedir.take start ++ slashJoin kept).length = start + (slashJoin kept).length)
    (htotal : total = (basedir.take start ++ slashJoin kept).length) (hmax : total + 1 ≤ ptrdiffMax) :
    (writePlaces basedir start total str offs >>= cstr)
      = .ok (basedir.take start ++ slashJoin kept) := by
  have hmod : sizeMod = 2 ^ 64 := rfl
  have hptr : ptrdiffMax = 2 ^ 63 - 1 := rfl
  have hsize : sizeAdd total 1 = total + 1 := sizeAdd_of_lt (by omega)
  rw [writePlaces_eq hstart hstr hplaces (by rw [hsize]; exact hmax) (by rw [hsize]; omega), hsize,
    store_filled (by rw [htotal]) 0 (by omega), ok_bind, htotal]
  have hcells : filled ((basedir.take start ++ slashJoin kept).length + 1)
      (basedir.take start ++ slashJoin kept ++ [0])
        = cells (basedir.take start ++ slashJoin kept) ++ [some 0] := by
    have hone : (basedir.take start ++ slashJoin kept).length + 1
        = (basedir.take start ++ slashJoin kept ++ [0]).length := by
      generalize basedir.take start ++ slashJoin kept = full
      simp
    rw [hone, filled_full, cells_append]
    rfl
  rw [hcells]
  exact cstr_cells _ hfull _

theorem SplitsTo.full_nul (h : SplitsTo path basedir start str cs)
    (hres : resolve (bytes ".") (bytes "..") [] cs = some kept) :
    0 ∉ basedir.take start ++ slashJoin kept := by
  intro hmem
  rcases List.mem_append.1 hmem with hbase | hkept
  · exact h.base_nul (List.mem_of_mem_take hbase)
  · refine nul_not_mem_slashJoin (fun c hc => ?_) hkept
    rcases resolve_mem hres hc with hnil | hcs
    · cases hnil
    · exact (h.components c hcs).2

theorem SplitsTo.full_length (h : SplitsTo path basedir start str cs) :
    (basedir.take start ++ slashJoin kept).length = start + (slashJoin kept).length := by
  have hstart := h.start_lt
  rw [List.length_append, List.length_take]
  omega

theorem SplitsTo.total_le (h : SplitsTo path basedir start str cs)
    (hres : resolve (bytes ".") (bytes "..") [] cs = some kept) :
    start + (slashJoin kept).length + 1 ≤ ptrdiffMax := by
  have hbalance := pushed_balance (fun c => c.length + 1) hres
  have hpushed : weight (fun c => c.length + 1) (pushed (bytes ".") (bytes "..") cs)
      ≤ weight (fun c => c.length + 1) cs := weight_pushed_le _ cs
  have hweight := h.weight_le
  have hbound := h.bound
  rw [weight_nil, Nat.zero_add] at hbalance
  rw [slashJoin_length]
  omega

/-- The counter comes out as the length of the resolved path exactly if the components in front of
    the `..`s are together as long as the components the `..`s remove. -/
theorem total_eq_iff (h : SplitsTo path basedir start str cs)
    (hres : resolve (bytes ".") (bytes "..") [] cs = some kept) {total : Nat}
    (htotal : total < sizeMod)
    (heq : (total + weight (fun c => c.length + 1) (before (bytes "..") (cs.headD []) cs)) % sizeMod
      = (start + weight (fun c => c.length + 1) (pushed (bytes ".") (bytes "..") cs)) % sizeMod) :
    total = start + (slashJoin kept).length ↔
      weight List.length (before (bytes "..") (cs.headD []) cs)
        = weight List.length (removed (bytes ".") (bytes "..") [] cs) := by
  have hmod : sizeMod = 2 ^ 64 := rfl
  have hptr : ptrdiffMax = 2 ^ 63 - 1 := rfl
  have hbalance := pushed_balance (fun c => c.length + 1) hres
  have hpushed : weight (fun c => c.length + 1) (pushed (bytes ".") (bytes "..") cs)
      ≤ weight (fun c => c.length + 1) cs := weight_pushed_le _ cs
  have hbefore : weight (fun c => c.length + 1) (before (bytes "..") (cs.headD []) cs)
      ≤ (cs.headD []).length + 1 + weight (fun c => c.length + 1) cs := weight_before_le _ _ cs
  have hfirst := headD_le cs
  have hweight := h.weight_le
  have hbound := h.bound
  have hlenEq := removed_length hres (cs.headD [])
  have hbeforeConst := weight_add_const List.length 1 (before (bytes "..") (cs.headD []) cs)
  have hremovedConst := weight_add_const List.length 1 (removed (bytes ".") (bytes "..") [] cs)
  rw [weight_nil, Nat.zero_add] at hbalance
  rw [slashJoin_length]
  simp only [sizeMod] at heq htotal
  omega

/-- The returned string is a prefix of the resolved path, if an `int` places the components. -/
theorem normalizePath_start (h : SplitsTo path basedir start str cs)
    (hres : resolve (bytes ".") (bytes "..") [] cs = some kept) (hplaces : IntPlaces start kept)
    {s : List UInt8} (hs : normalizedString path basedir = .ok s) :
    s <+: basedir.take start ++ slashJoin kept := by
  obtain ⟨total, offs, htotal, _, hstr, hrun⟩ := normalizePath_run h hres
  rw [normalizedString, hrun] at hs
  rw [(writePlaces_string h.start_lt hstr hplaces htotal (h.full_nul hres) h.full_length hs).1]
  exact List.take_prefix _ _

/-- If it does not, the end of the resolved path is missing. -/
theorem normalizedString_wraps (h : SplitsTo path basedir start str cs)
    (hres : resolve (bytes ".") (bytes "..") [] cs = some kept) (hplaces : ¬ IntPlaces start kept)
    {s : List UInt8} (hs : normalizedString path basedir = .ok s) {k : Nat}
    (hlast : start + (slashJoin kept.dropLast).length ≤ k)
    (hend : start + (slashJoin kept).length ≤ k + 2) : s.length ≤ k := by
  obtain ⟨hkept, hlong⟩ := not_or.1 hplaces
  obtain ⟨total, offs, _, _, hstr, hrun⟩ := normalizePath_run h hres
  rw [normalizedString, hrun] at hs
  exact writePlaces_wraps hstr hkept (Nat.le_of_not_lt hlong) hs hlast hend

/-- **When the resolved path is returned.** -/
theorem normalizePath_eq_iff (h : SplitsTo path basedir start str cs)
    (hres : resolve (bytes ".") (bytes "..") [] cs = some kept) (hplaces : IntPlaces start kept) :
    normalizedString path basedir = .ok (basedir.take start ++ slashJoin kept) ↔
      weight List.length (before (bytes "..") (cs.headD []) cs)
        = weight List.length (removed (bytes ".") (bytes "..") [] cs) := by
  obtain ⟨total, offs, htotal, heq, hstr, hrun⟩ := normalizePath_run h hres
  rw [← total_eq_iff h hres htotal heq, normalizedString, hrun]
  constructor
  · intro hs
    obtain ⟨htake, hle⟩ :=
      writePlaces_string h.start_lt hstr hplaces htotal (h.full_nul hres) h.full_length hs
    have hlen := congrArg List.length htake
    rw [List.length_take, Nat.min_eq_left hle, h.full_length] at hlen
    exact hlen.symm
  · intro hlen
    exact writePlaces_full h.start_lt hstr hplaces (h.full_nul hres) h.full_length
      (hlen.trans h.full_length.symm) (by rw [hlen]; exact h.total_le hres)

end Run

end Ryze
