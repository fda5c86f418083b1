import Ryze.Util.Normalize

set_option autoImplicit false

/-! # When `normalize_path` stays inside its blocks

`total` is meant to be the length of the kept components, but a `..` takes the component in front of
it off `total` where it takes the last kept one off the stack. The result is allocated with `total`
and written from the stack, so it is large enough only as long as the two agree within a byte: the
block has one byte more than `total`, and the NUL that belongs there is written last. Of a result that
an `int` does not place, each component has to be inside the block where the wrapped `int` places
it. -/

namespace Ryze

open CLib Cutting LexicalPath

/-- No round of the loop over the components pops an empty stack or takes `total` below zero. -/
def PopsInside (str : List (Option UInt8)) : (left : Nat) → (p prev : Nat) → StackState → Prop
  | 0, _, _, _ => True
  | left + 1, p, prev, st => ∃ s st',
      cstr (str.drop p) = .ok s ∧
      (s = bytes ".." → 0 < st.index ∧ ∃ q, cstr (str.drop prev) = .ok q ∧ q.length + 1 ≤ st.total) ∧
      stackStep str p prev s st = .ok st' ∧ PopsInside str left (p + s.length + 1) p st'

/-- `normalize_path` on a relative path: every access is inside its block and the result has its NUL;
    no length wraps; and nothing is popped from an empty stack. -/
def NormalizeSafe (path basedir : List UInt8) : Prop :=
  (∃ result, normalizePath path basedir = .ok result ∧ some 0 ∈ result) ∧
    let start := pathStart basedir (schemeLen basedir)
    start + 1 ≤ basedir.length ∧
    ∃ block str last count stack,
      joinedPath path basedir start = .ok block ∧
      strSplitInt block (schar slash) true = .ok (str, last, some count) ∧
      malloc count.toNat = .ok stack ∧ PopsInside str count.toNat 0 0 ⟨0, stack, 0⟩

/-! ## The components -/

theorem splitOn_component {s c : List UInt8} (hs : 0 ∉ s) (hc : c ∈ s.splitOn slash) :
    IsComponent c :=
  ⟨(pieces_splitOn slash s).notMem hc, fun h => hs ((pieces_splitOn slash s).mem hc h)⟩

theorem nul_not_mem_joined {s path : List UInt8} (hs : 0 ∉ s) (hpath : 0 ∉ path) :
    0 ∉ s ++ slash :: path := by
  intro hmem
  rcases List.mem_append.1 hmem with hmem | hmem
  · exact hs hmem
  · rcases List.mem_cons.1 hmem with h0 | hmem
    · exact absurd h0 (by decide)
    · exact hpath hmem

/-- The components of the path behind the base directory's, as `str_split` counts them. -/
def pathComponents (path basedir : List UInt8) : List (List UInt8) :=
  counted ((basedir.drop (pathStart basedir (schemeLen basedir) + 1) ++ slash :: path).splitOn slash)

/-- The components that are read of every relative path behind a base directory that is more than a
    scheme. -/
theorem splitsTo_pathComponents {path basedir : List UInt8} (hpath : 0 ∉ path) (hbase : 0 ∉ basedir)
    (hrel : isAbsolutePath path = .ok false)
    (hlt : pathStart basedir (schemeLen basedir) < basedir.length)
    (hbound : basedir.length + path.length + 2 ≤ ptrdiffMax) :
    ∃ str, SplitsTo path basedir (pathStart basedir (schemeLen basedir)) str
      (readComponents (pathComponents path basedir)) := by
  have hnul := nul_not_mem_joined
    (s := basedir.drop (pathStart basedir (schemeLen basedir) + 1))
    (fun hmem => hbase (List.mem_of_mem_drop hmem)) hpath
  exact ⟨_, splitsTo_read hrel rfl hlt (List.intercalate_splitOn slash).symm
    (fun c hc => splitOn_component hnul hc) (List.splitOn_ne_nil _ _) hbase hbound⟩

/-! ## The loop over the components -/

section Pops

variable {str : List (Option UInt8)} {left p prev : Nat} {c q : List UInt8} {st st' : StackState}

theorem popsInside_succ (hc : cstr (str.drop p) = .ok c)
    (hstep : stackStep str p prev c st = .ok st') :
    PopsInside str (left + 1) p prev st ↔
      (c = bytes ".." → 0 < st.index ∧
        ∃ q, cstr (str.drop prev) = .ok q ∧ q.length + 1 ≤ st.total) ∧
      PopsInside str left (p + c.length + 1) p st' := by
  constructor
  · rintro ⟨t, st'', ht, hpop, hstep', hrest⟩
    rw [hc] at ht
    cases ht
    rw [hstep] at hstep'
    cases hstep'
    exact ⟨hpop, hrest⟩
  · rintro ⟨hpop, hrest⟩
    exact ⟨c, st', hc, hpop, hstep, hrest⟩

theorem popsInside_dotdot (hdd : c = bytes "..") (hc : cstr (str.drop p) = .ok c)
    (hprev : cstr (str.drop prev) = .ok q) :
    PopsInside str (left + 1) p prev st ↔ (0 < st.index ∧ q.length + 1 ≤ st.total) ∧
      PopsInside str left (p + c.length + 1) p
        ⟨toInt32 (st.index - 1), st.stack, sizeSub st.total (sizeAdd q.length 1)⟩ := by
  rw [popsInside_succ hc (hdd ▸ stackStep_dotdot hprev st)]
  constructor
  · rintro ⟨hpop, hrest⟩
    obtain ⟨hindex, t, ht, hle⟩ := hpop hdd
    rw [hprev] at ht
    cases ht
    exact ⟨⟨hindex, hle⟩, hrest⟩
  · rintro ⟨⟨hindex, hle⟩, hrest⟩
    exact ⟨fun _ => ⟨hindex, q, hprev, hle⟩, hrest⟩

theorem popsInside_other (hdd : c ≠ bytes "..") (hc : cstr (str.drop p) = .ok c)
    (hstep : stackStep str p prev c st = .ok st') :
    PopsInside str (left + 1) p prev st ↔ PopsInside str left (p + c.length + 1) p st' := by
  rw [popsInside_succ hc hstep]
  exact ⟨fun h => h.2, fun h => ⟨fun hc => absurd hc hdd, h⟩⟩

end Pops

/-- The loop pops what is there exactly if the components can be resolved, and `total` stays above
    zero exactly if what stands in front of the `..`s is covered. -/
theorem popsInside_iff (str : List (Option UInt8)) {cs kept : List (List UInt8)}
    (hcs : ∀ c ∈ cs, 0 ∉ c) {p prev : Nat} {q : List UInt8} {m : List (Option UInt8)}
    {st : StackState} (hp : str.drop p = cells (nulJoin cs) ++ m)
    (hprev : cstr (str.drop prev) = .ok q) (hst : StackHolds str st kept)
    (hroom : kept.length + cs.length ≤ st.stack.length) (hint : st.stack.length ≤ intMax)
    (hmax : st.total + weight (fun c => c.length + 1) cs < sizeMod) :
    PopsInside str cs.length p prev st ↔
      (∃ kept', resolve (bytes ".") (bytes "..") kept cs = some kept') ∧
        Covered (bytes ".") (bytes "..") (fun c => c.length + 1) st.total q cs := by
  induction cs generalizing kept p prev q st with
  | nil =>
      constructor
      · intro _
        exact ⟨⟨kept, rfl⟩, covered_nil⟩
      · intro _
        exact trivial
  | cons c cs ih =>
      obtain ⟨hc, hnext⟩ := component_at (hcs c (List.mem_cons_self ..)) hp
      have hcs' : ∀ d ∈ cs, 0 ∉ d := fun d hd => hcs d (List.mem_cons_of_mem _ hd)
      have hidx := hst.index
      have hmod : sizeMod = 2 ^ 64 := rfl
      rw [List.length_cons] at hroom
      rw [weight_cons] at hmax
      by_cases hdd : c = bytes ".."
      · rw [List.length_cons, popsInside_dotdot hdd hc hprev, covered_dotdot hdd, resolve,
          resolveStep, if_pos hdd]
        by_cases hne : kept = []
        · rw [if_pos hne, hidx, hne]
          constructor
          · rintro ⟨⟨hpos, _⟩, _⟩
            exact absurd hpos (by simp)
          · rintro ⟨⟨_, hres⟩, _⟩
            cases hres
        · have hpos := List.length_pos_of_ne_nil hne
          rw [if_neg hne, Option.bind_some]
          by_cases hq : q.length + 1 ≤ st.total
          · have hsub : sizeSub st.total (sizeAdd q.length 1) = st.total - (q.length + 1) := by
              rw [sizeAdd_of_lt (by omega), sizeSub_of_le hq (by omega)]
            rw [hsub, ih hcs' hnext hc (hst.pop hint hne (st.total - (q.length + 1)))
              (by simp only [List.length_dropLast]; omega) hint (by simp only; omega)]
            constructor
            · rintro ⟨-, hres, hcov⟩
              exact ⟨hres, hq, hcov⟩
            · rintro ⟨hres, -, hcov⟩
              exact ⟨⟨by omega, hq⟩, hres, hcov⟩
          · constructor
            · rintro ⟨⟨_, hle⟩, _⟩
              exact absurd hle hq
            · rintro ⟨_, hle, _⟩
              exact absurd hle hq
      · by_cases hd : c = bytes "."
        · have hstep := hd ▸ stackStep_dot str p prev st
          rw [List.length_cons, popsInside_other hdd hc hstep, covered_dot hdd hd, resolve,
            resolveStep, if_neg hdd, if_pos hd, Option.bind_some,
            ih hcs' hnext hc hst (by omega) hint (by omega)]
        · have hadd : sizeAdd st.total (sizeAdd c.length 1) = st.total + (c.length + 1) := by
            rw [sizeAdd_of_lt (show c.length + 1 < sizeMod by omega), sizeAdd_of_lt (by omega)]
          obtain ⟨stack, hstore, hlen, hpush⟩ := hst.push (by omega) hint hc (st.total + (c.length + 1))
          have hstep := stackStep_push str prev hdd hd hstore
          rw [hadd] at hstep
          rw [List.length_cons, popsInside_other hdd hc hstep, covered_push hdd hd, resolve,
            resolveStep, if_neg hdd, if_neg hd, Option.bind_some, ih hcs' hnext hc hpush
              (by simp only [List.length_append, List.length_singleton]; omega)
              (Nat.le_trans (Nat.le_of_eq hlen) hint) (by simp only; omega)]

/-! ## The result -/

section Fits

variable {path basedir : List UInt8} {start : Nat} {str : List (Option UInt8)}
  {cs kept : List (List UInt8)}

/-- Without a wrap `total` is what was pushed less what stands in front of the `..`s. -/
theorem SplitsTo.total_eq (h : SplitsTo path basedir start str cs) {total : Nat}
    (hcov : Covered (bytes ".") (bytes "..") (fun c => c.length + 1) 0 (cs.headD []) cs)
    (htotal : (total + weight (fun c => c.length + 1) (before (bytes "..") (cs.headD []) cs)) % sizeMod
      = weight (fun c => c.length + 1) (pushed (bytes ".") (bytes "..") cs) % sizeMod)
    (hlt : total < sizeMod) :
    total + weight (fun c => c.length + 1) (before (bytes "..") (cs.headD []) cs)
        = weight (fun c => c.length + 1) (pushed (bytes ".") (bytes "..") cs) ∧
      start + total + 1 ≤ ptrdiffMax := by
  have hptr : ptrdiffMax = 2 ^ 63 - 1 := rfl
  have hle := hcov.le
  have hpushed : weight (fun c => c.length + 1) (pushed (bytes ".") (bytes "..") cs)
      ≤ weight (fun c => c.length + 1) cs := weight_pushed_le _ cs
  have hweight := h.weight_le
  have hbound := h.bound
  simp only [sizeMod] at htotal hlt
  omega

/-- The loop over the components, from the empty stack. -/
theorem SplitsTo.pops_iff (h : SplitsTo path basedir start str cs) :
    PopsInside str cs.length 0 0 ⟨0, List.replicate cs.length none, 0⟩ ↔
      (∃ kept, resolve (bytes ".") (bytes "..") [] cs = some kept) ∧
        Covered (bytes ".") (bytes "..") (fun c => c.length + 1) 0 (cs.headD []) cs := by
  by_cases hne : cs = []
  · subst hne
    exact ⟨fun _ => ⟨⟨[], rfl⟩, covered_nil⟩, fun _ => trivial⟩
  · obtain ⟨m, hm⟩ := h.holds
    have hptr : ptrdiffMax = 2 ^ 63 - 1 := rfl
    have hmod : sizeMod = 2 ^ 64 := rfl
    have hweight := h.weight_le
    have hbound := h.bound
    have hempty : StackHolds str ⟨0, List.replicate cs.length none, 0⟩ [] := ⟨[], rfl, rfl, rfl⟩
    exact popsInside_iff str (fun c hc => (h.components c hc).2) (p := 0) (m := m) hm (h.first hne)
      hempty (by simp) (by simpa using h.length_le) (by simp only; omega)

/-- The result is written exactly if each component is inside the block where it is placed. -/
theorem SplitsTo.writes_iff (h : SplitsTo path basedir start str cs)
    (hres : resolve (bytes ".") (bytes "..") [] cs = some kept)
    (hcov : Covered (bytes ".") (bytes "..") (fun c => c.length + 1) 0 (cs.headD []) cs) :
    (∃ result, normalizePath path basedir = .ok result ∧ some 0 ∈ result) ↔
      PlacedInside 0 (start + weight (fun c => c.length + 1) (pushed (bytes ".") (bytes "..") cs)
        - weight (fun c => c.length + 1) (before (bytes "..") (cs.headD []) cs) + 1) start kept := by
  have hptr : ptrdiffMax = 2 ^ 63 - 1 := rfl
  have hmod : sizeMod = 2 ^ 64 := rfl
  obtain ⟨st, hloop, hst, htotal, hlt⟩ := h.stack hres
  obtain ⟨htotal, hmax⟩ := h.total_eq hcov htotal hlt
  obtain ⟨offs, hstr, hrun⟩ := h.result hloop hst
  have hsum : sizeAdd st.total start = start + st.total := by
    rw [sizeAdd_of_lt (by omega), Nat.add_comm]
  have hsize : sizeAdd (start + st.total) 1 = start + st.total + 1 := sizeAdd_of_lt (by omega)
  rw [hrun, hsum, ← htotal, ← Nat.add_assoc, Nat.add_sub_cancel]
  constructor
  · rintro ⟨b, hb, -⟩
    obtain ⟨_, _, _, hin⟩ := writePlaces_ok hstr hb
    rwa [hsize] at hin
  · intro hin
    exact writePlaces_of_placed h.start_lt hstr (by omega) (by omega) (by omega)
      (by rwa [hsize])

/-- Where an `int` places the components, they are inside the block exactly if the components in front
    of the `..`s are together at most one byte longer than the ones that the `..`s remove. -/
theorem fits_iff (hres : resolve (bytes ".") (bytes "..") [] cs = some kept)
    (hcov : Covered (bytes ".") (bytes "..") (fun c => c.length + 1) 0 (cs.headD []) cs)
    (hplaces : IntPlaces start kept) :
    PlacedInside 0 (start + weight (fun c => c.length + 1) (pushed (bytes ".") (bytes "..") cs)
        - weight (fun c => c.length + 1) (before (bytes "..") (cs.headD []) cs) + 1) start kept ↔
      weight List.length (before (bytes "..") (cs.headD []) cs)
        ≤ weight List.length (removed (bytes ".") (bytes "..") [] cs) + 1 := by
  have hle := hcov.le
  have hbalance := pushed_balance (fun c => c.length + 1) hres
  have hlen := removed_length hres (cs.headD [])
  have hbefore := weight_add_const List.length 1 (before (bytes "..") (cs.headD []) cs)
  have hremoved := weight_add_const List.length 1 (removed (bytes ".") (bytes "..") [] cs)
  rw [placedInside_iff hplaces, slashJoin_length]
  rw [weight_nil, Nat.zero_add] at hbalance
  by_cases hkept : kept = []
  · subst hkept
    rw [weight_nil, Nat.zero_add] at hbalance
    exact ⟨fun _ => by omega, fun _ => Or.inl rfl⟩
  · rw [or_iff_right hkept]
    omega

end Fits

/-- The inputs on which `normalize_path` stays inside its blocks. The base directory is not a bare
    scheme; every `..` has something to pop; what stands in front of the first few `..`s is never
    longer than what was pushed by then, and in the end at most one byte longer than what they
    removed. If an `int` does not place the components that are kept, each of them has to be inside
    the block where it is placed. -/
def StaysInside (path basedir : List UInt8) : Prop :=
  let start := pathStart basedir (schemeLen basedir)
  let cs := readComponents (pathComponents path basedir)
  start < basedir.length ∧
    ∃ kept, resolve (bytes ".") (bytes "..") [] cs = some kept ∧
      Covered (bytes ".") (bytes "..") (fun c => c.length + 1) 0 [] cs ∧
      (IntPlaces start kept → weight List.length (before (bytes "..") [] cs)
        ≤ weight List.length (removed (bytes ".") (bytes "..") [] cs) + 1) ∧
      (¬ IntPlaces start kept → PlacedInside 0
        (start + weight (fun c => c.length + 1) (pushed (bytes ".") (bytes "..") cs)
          - weight (fun c => c.length + 1) (before (bytes "..") [] cs) + 1) start kept)

theorem normalizePath_safe_iff {path basedir : List UInt8} (hpath : 0 ∉ path) (hbase : 0 ∉ basedir)
    (hrel : isAbsolutePath path = .ok false)
    (hbound : basedir.length + path.length + 2 ≤ ptrdiffMax) :
    NormalizeSafe path basedir ↔ StaysInside path basedir := by
  by_cases hlt : pathStart basedir (schemeLen basedir) < basedir.length
  · obtain ⟨str, h⟩ := splitsTo_pathComponents hpath hbase hrel hlt hbound
    simp only [StaysInside]
    generalize readComponents (pathComponents path basedir) = cs at h ⊢
    obtain ⟨block, last, count, hjoin, hsplit, hcount⟩ := h.split
    have hmalloc : (malloc count.toNat : CRun (List (Option Nat)))
        = .ok (List.replicate cs.length none) := by
      rw [hcount, malloc, if_pos (Nat.le_trans h.length_le (by decide))]
    constructor
    · rintro ⟨hrun, -, block', str', last', count', stack, hjoin', hsplit', hmalloc', hin⟩
      rw [hjoin] at hjoin'
      cases hjoin'
      rw [hsplit] at hsplit'
      cases hsplit'
      rw [hmalloc] at hmalloc'
      cases hmalloc'
      rw [hcount] at hin
      obtain ⟨⟨kept, hres⟩, hcov⟩ := h.pops_iff.1 hin
      have hplaced := (h.writes_iff hres hcov).1 hrun
      refine ⟨hlt, kept, hres, (covered_prev hres _ []).1 hcov, fun hplaces => ?_, fun _ => ?_⟩
      · have hfit := (fits_iff hres hcov hplaces).1 hplaced
        rwa [before_prev hres _ []] at hfit
      · rwa [before_prev hres _ []] at hplaced
    · rintro ⟨-, kept, hres, hcov, hfit, hplaced⟩
      have hcov' := (covered_prev hres [] (cs.headD [])).1 hcov
      refine ⟨(h.writes_iff hres hcov').2 ?_, hlt, block, str, last, _, _, hjoin, hsplit, hmalloc, ?_⟩
      · by_cases hplaces : IntPlaces (pathStart basedir (schemeLen basedir)) kept
        · refine (fits_iff hres hcov' hplaces).2 ?_
          rw [before_prev hres _ []]
          exact hfit hplaces
        · rw [before_prev hres _ []]
          exact hplaced hplaces
      · rw [hcount]
        exact h.pops_iff.2 ⟨⟨kept, hres⟩, hcov'⟩
  · constructor
    · rintro ⟨-, hlt', -⟩
      exact absurd hlt' hlt
    · rintro ⟨hlt', -⟩
      exact absurd hlt' hlt

end Ryze
