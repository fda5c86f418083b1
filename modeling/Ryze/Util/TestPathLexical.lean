import Ryze.Util.TestPathSafety

set_option autoImplicit false

/-! # What the `normalize_path` of `test.c` computes

Below a base directory that starts with `/` the first component is empty, so what is written always
fits. The result is the lexical path, on which the function is idempotent, unless the stack outgrows
an `int` or the last component stands behind more bytes than an `int` places. -/

namespace Ryze

open CLib LexicalPath

namespace Test

/-! ## Reading a path that was written -/

theorem splitOn_slashJoin {kept : List (List UInt8)} (hkept : ∀ c ∈ kept, slash ∉ c) :
    (slashJoin kept).splitOn slash = [] :: kept := by
  have hjoin : slashJoin kept = [slash].intercalate ([] :: kept) := by
    cases kept with
    | nil => rfl
    | cons c cs =>
        rw [slashJoin_eq (by simp), List.intercalate_cons_cons]
        rfl
  rw [hjoin]
  refine List.splitOn_intercalate slash (fun c hc => ?_) (by simp)
  rcases List.mem_cons.1 hc with rfl | hc
  · simp
  · exact hkept c hc

/-- One component more below a path that was written. -/
theorem pathComponents_slashJoin {kept : List (List UInt8)} {d : List UInt8}
    (hkept : ∀ c ∈ kept, slash ∉ c) (hd : slash ∉ d) :
    pathComponents (slashJoin kept) d = [] :: kept ++ [d] := by
  have hjoin : slashJoin kept ++ slash :: d = slashJoin (kept ++ [d]) := by
    rw [slashJoin, slashJoin, List.flatMap_append]
    simp
  rw [pathComponents, hjoin, splitOn_slashJoin, List.cons_append]
  intro c hc
  rcases List.mem_append.1 hc with hc | hc
  · exact hkept c hc
  · rw [List.mem_singleton.1 hc]
    exact hd

theorem names_kept {kept : List (List UInt8)} {d : List UInt8} (hkept : ∀ c ∈ kept, IsPlain c)
    (hd : d ≠ []) : names ([] :: kept ++ [d]) = kept ++ [d] := by
  have hfilter : kept.filter (fun c => c ≠ []) = kept :=
    List.filter_eq_self.2 fun c hc => decide_eq_true (hkept c hc).1
  rw [names, List.cons_append, List.filter_cons_of_neg (by simp), List.filter_append, hfilter,
    List.filter_cons_of_pos (by simp [hd]), List.filter_nil]

theorem resolve_kept {kept : List (List UInt8)} (hkept : ∀ c ∈ kept, IsPlain c) :
    resolve (bytes ".") (bytes "..") [] (kept ++ [bytes "."]) = some kept := by
  have happend : ∀ cs base : List (List UInt8), (∀ c ∈ cs, IsPlain c) →
      resolve (bytes ".") (bytes "..") base (cs ++ [bytes "."]) = some (base ++ cs) := by
    intro cs
    induction cs with
    | nil =>
        intro base _
        rw [List.append_nil]
        rfl
    | cons c cs ih =>
        intro base hcs
        obtain ⟨-, hd, hdd⟩ := hcs c (List.mem_cons_self ..)
        rw [List.cons_append, resolve, resolveStep, if_neg hdd, if_neg hd, Option.bind_some,
          ih _ fun c hc => hcs c (List.mem_cons_of_mem _ hc), List.append_assoc]
        rfl
  exact happend kept [] hkept

/-- Every component that was kept takes two bytes of the result. -/
theorem two_mul_length_le {kept : List (List UInt8)} (hkept : ∀ c ∈ kept, IsPlain c) :
    2 * kept.length ≤ (slashJoin kept).length := by
  induction kept with
  | nil => exact Nat.le_refl _
  | cons c kept ih =>
      have hpos := List.length_pos_of_ne_nil (hkept c (List.mem_cons_self ..)).1
      have hrest := ih fun c hc => hkept c (List.mem_cons_of_mem _ hc)
      rw [slashJoin_cons, List.length_cons, List.length_cons, List.length_append]
      omega

/-! ## The result -/

section Result

variable {basedir path : List UInt8} {kept : List (List UInt8)}

/-- Only names are kept. -/
theorem kept_plain (hres : resolve (bytes ".") (bytes "..") [] (names (pathComponents basedir path))
    = some kept) : ∀ c ∈ kept, IsPlain c := by
  have hstep : ∀ cs base kept' : List (List UInt8), (∀ c ∈ base, IsPlain c) →
      resolve (bytes ".") (bytes "..") base (names cs) = some kept' → ∀ c ∈ kept', IsPlain c := by
    intro cs
    induction cs with
    | nil =>
        intro base kept' hbase h
        cases h
        exact hbase
    | cons c cs ih =>
        intro base kept' hbase h
        by_cases hc : c = []
        · have hnames : names (c :: cs) = names cs := by simp [names, hc]
          rw [hnames] at h
          exact ih base kept' hbase h
        · have hnames : names (c :: cs) = c :: names cs := by simp [names, hc]
          rw [hnames] at h
          obtain ⟨k, hk, h⟩ := resolve_cons h
          refine ih k kept' ?_ h
          rcases resolveStep_cases hk with ⟨_, _, rfl⟩ | ⟨_, _, rfl⟩ | ⟨hdd, hd, rfl⟩
          · exact fun e he => hbase e (List.dropLast_subset _ he)
          · exact hbase
          · intro e he
            rcases List.mem_append.1 he with he | he
            · exact hbase e he
            · rw [List.mem_singleton.1 he]
              exact ⟨hc, hd, hdd⟩
  exact hstep _ [] kept (by simp) hres

theorem kept_component (hbase : 0 ∉ basedir) (hpath : 0 ∉ path)
    (hres : resolve (bytes ".") (bytes "..") [] (names (pathComponents basedir path)) = some kept) :
    ∀ c ∈ kept, IsComponent c := by
  intro c hc
  rcases resolve_mem hres hc with hmem | hmem
  · exact absurd hmem (by simp)
  · exact pathComponents_component hbase hpath c (List.mem_of_mem_filter hmem)

/-- The call returns a block of the size it asked for that holds `s`. -/
def Returns (basedir path s : List UInt8) : Prop :=
  ∃ result, normalizePath basedir path = .ok result ∧ cstr result = .ok s ∧
    result.length = basedir.length + path.length + 2 ∧
    s.length + 1 ≤ basedir.length + path.length + 2

theorem returns_of_walks (hbase : 0 ∉ basedir) (hpath : 0 ∉ path)
    (hbound : basedir.length + path.length + 2 ≤ ptrdiffMax)
    (hplain : ¬ ∀ c ∈ pathComponents basedir path, IsPlain c)
    (hwalks : Walks [] (pathComponents basedir path) kept) (hkept : kept ≠ [])
    (hplaces : IntPlaces 0 kept) : Returns basedir path (slashJoin kept) := by
  have hlt := (kept_lt_iff hwalks.1).2 hplain
  rw [weight_pathComponents, ← slashJoin_length] at hlt
  obtain ⟨offs, hstr, hrun⟩ := normalizePath_places hbase hpath hbound hwalks
  obtain ⟨result, hresult, -, hbehind⟩ := placeAll_starts (w := []) (Nat.le_refl 1) hstr
    (malloc_starts hbound).2 hplaces (by rw [List.length_nil]; omega)
  have hstarts := hbehind hkept
  rw [List.nil_append, List.replicate_one] at hstarts
  refine ⟨result, hrun.trans hresult, ?_, hstarts.length, hlt⟩
  have hnul : 0 ∉ slashJoin kept :=
    nul_not_mem_slashJoin fun c hc => (kept_component hbase hpath hwalks.1 c hc).2
  rw [← List.take_append_drop (slashJoin kept ++ [0]).length result, hstarts.front, cells_append,
    List.append_assoc]
  exact cstr_cells _ hnul _

/-- A result that is returned whole was placed by an `int`. -/
theorem Returns.places (h : Returns basedir path (slashJoin kept)) (hbase : 0 ∉ basedir)
    (hpath : 0 ∉ path) (hbound : basedir.length + path.length + 2 ≤ ptrdiffMax)
    (hwalks : Walks [] (pathComponents basedir path) kept) : IntPlaces 0 kept := by
  obtain ⟨result, hresult, hstring, -⟩ := h
  obtain ⟨offs, hstr, hrun⟩ := normalizePath_places hbase hpath hbound hwalks
  rw [hresult] at hrun
  by_contra hplaces
  obtain ⟨hkept, hlong⟩ := not_or.1 hplaces
  have hplain := kept_plain hwalks.1 _ (List.getLast_mem hkept)
  have hpos := List.length_pos_of_ne_nil hplain.1
  have hlast := slashJoin_dropLast hkept
  have hlt : (slashJoin kept).length - 1 < (slashJoin kept).length := by omega
  have hzero : toInt32 (0 : Nat) = 0 := rfl
  have hcell := placeAll_wraps (Nat.le_refl 1) (toInt32_le_intMax _) hstr hkept hrun.symm
    (k := (slashJoin kept).length - 1) (by omega) (by omega) (by omega)
  obtain ⟨hget, -⟩ := getElem?_cstr hstring (List.getElem?_eq_getElem hlt)
  rw [hcell, List.getElem?_replicate] at hget
  split at hget
  · cases hget
  · cases hget

/-- What `normalize_path` promises when the components resolve to `kept`: every access is inside its
    block, and the block returned holds `kept`, without an empty, `.` or `..` component, and comes out
    the same when it is normalised again, if the memory for that can be had. -/
structure Normalizes (basedir path : List UInt8) (kept : List (List UInt8)) : Prop where
  safe : NormalizeSafe basedir path
  returns : Returns basedir path (slashJoin kept)
  components : (slashJoin kept).splitOn slash = [] :: kept
  plain : ∀ c ∈ kept, IsPlain c
  again : (slashJoin kept).length + (bytes ".").length + 2 ≤ ptrdiffMax →
    Returns (slashJoin kept) (bytes ".") (slashJoin kept)

/-- A path that was written is normalised to itself. -/
theorem returns_again (hkept : kept ≠ []) (hplain : ∀ c ∈ kept, IsPlain c)
    (hcomp : ∀ c ∈ kept, IsComponent c) (hplaces : IntPlaces 0 kept)
    (hbound : (slashJoin kept).length + (bytes ".").length + 2 ≤ ptrdiffMax) :
    Returns (slashJoin kept) (bytes ".") (slashJoin kept) := by
  have hcomps := pathComponents_slashJoin (d := bytes ".") (fun c hc => (hcomp c hc).1) (by decide)
  have htwo := two_mul_length_le fun c hc => hplain c (List.dropLast_subset _ hc)
  have hshallow : (kept ++ [bytes "."]).length ≤ depthMax := by
    have hpos := List.length_pos_of_ne_nil hkept
    have hlong := hplaces.resolve_left hkept
    rw [List.length_dropLast] at htwo
    rw [List.length_append, List.length_singleton]
    simp only [depthMax, intMax] at *
    omega
  refine returns_of_walks (nul_not_mem_slashJoin fun c hc => (hcomp c hc).2) (by decide) hbound ?_ ?_
    hkept hplaces
  · rw [hcomps]
    intro hall
    exact (hall [] (by simp)).1 rfl
  · rw [hcomps]
    refine ⟨?_, ?_⟩
    · rw [names_kept hplain (by decide)]
      exact resolve_kept hplain
    · rw [names_kept hplain (by decide)]
      exact shallow_of_length (by rw [List.length_nil]; omega)

theorem head_component (habs : basedir.head? = some slash) : [] ∈ pathComponents basedir path := by
  obtain ⟨rest, rfl⟩ : ∃ rest, basedir = slash :: rest := by
    cases basedir with
    | nil => cases habs
    | cons c rest =>
        cases habs
        exact ⟨rest, rfl⟩
  rw [pathComponents, List.cons_append, ← List.nil_append (slash :: _),
    List.splitOn_append_cons_self_of_not_mem (by simp)]
  exact List.mem_cons_self ..

end Result

/-- **When the lexical path is computed.** Below an absolute directory, unless more components are kept
    at a time than an `int` counts, or more bytes stand in front of the last one than it places. -/
theorem normalizePath_lexical (basedir path : List UInt8) (kept : List (List UInt8))
    (hbase : 0 ∉ basedir) (hpath : 0 ∉ path)
    (hbound : basedir.length + path.length + 2 ≤ ptrdiffMax) (habs : basedir.head? = some slash)
    (hres : resolve (bytes ".") (bytes "..") [] (names (pathComponents basedir path)) = some kept)
    (hkept : kept ≠ []) :
    Normalizes basedir path kept ↔
      Shallow (bytes ".") (bytes "..") depthMax [] (names (pathComponents basedir path)) ∧
        (slashJoin kept.dropLast).length < intMax := by
  have hfirst : ¬ ∀ c ∈ pathComponents basedir path, IsPlain c := fun hall =>
    (hall [] (head_component habs)).1 rfl
  have hcomp := kept_component hbase hpath hres
  have hplain := kept_plain hres
  constructor
  · intro h
    obtain ⟨kept', hwalks, -⟩ := (normalizePath_safe_iff hbase hpath hbound).1 h.safe
    obtain ⟨hres', hshallow⟩ := hwalks
    rw [hres] at hres'
    cases hres'
    have hplaces := h.returns.places hbase hpath hbound ⟨hres, hshallow⟩
    have hlong := hplaces.resolve_left hkept
    rw [Nat.zero_add] at hlong
    exact ⟨hshallow, hlong⟩
  · rintro ⟨hshallow, hlong⟩
    have hplaces : IntPlaces 0 kept := Or.inr (by rwa [Nat.zero_add])
    exact {
      safe := (normalizePath_safe_iff hbase hpath hbound).2
        ⟨kept, ⟨hres, hshallow⟩, hkept, fun _ => hfirst, fun hnot => absurd hplaces hnot⟩
      returns := returns_of_walks hbase hpath hbound hfirst ⟨hres, hshallow⟩ hkept hplaces
      components := splitOn_slashJoin fun c hc => (hcomp c hc).1
      plain := hplain
      again := returns_again hkept hplain hcomp hplaces }

/-- `../../e/f/11.js` below `/a/b/c`. -/
theorem normalizePath_lexical_js :
    Normalizes (bytes "/a/b/c") (bytes "../../e/f/11.js")
      [bytes "a", bytes "e", bytes "f", bytes "11.js"] :=
  (normalizePath_lexical (bytes "/a/b/c") (bytes "../../e/f/11.js")
    [bytes "a", bytes "e", bytes "f", bytes "11.js"] (by decide) (by decide) (by decide) (by decide)
    (by decide) (by decide)).2 ⟨shallow_of_length (by decide), by decide⟩

/-- A name of `n` letters. -/
theorem replicate_plain {n : Nat} (hn : 2 < n) :
    IsPlain (List.replicate n 97) ∧ IsComponent (List.replicate n 97) := by
  have hlen : (List.replicate n (97 : UInt8)).length = n := List.length_replicate
  have hdots : (bytes "..").length = 2 ∧ (bytes ".").length = 1 := by decide
  refine ⟨⟨fun h => ?_, fun h => ?_, fun h => ?_⟩, fun hmem => ?_, fun hmem => ?_⟩
  · rw [h, List.length_nil] at hlen
    omega
  · rw [h] at hlen
    omega
  · rw [h] at hlen
    omega
  · exact absurd (List.eq_of_mem_replicate hmem) (by decide)
  · exact absurd (List.eq_of_mem_replicate hmem) (by decide)

/-- Behind a component as long as an `int` counts no other one is placed. -/
theorem not_normalizes_of_long {n : Nat} (hn : intMax ≤ n) (hmax : n + 4 ≤ ptrdiffMax) :
    ¬ ∀ (basedir path : List UInt8) (kept : List (List UInt8)), 0 ∉ basedir → 0 ∉ path →
      basedir.length + path.length + 2 ≤ ptrdiffMax → basedir.head? = some slash →
      resolve (bytes ".") (bytes "..") [] (names (pathComponents basedir path)) = some kept →
      kept ≠ [] → Normalizes basedir path kept := by
  intro h
  have hlen : (List.replicate n (97 : UInt8)).length = n := List.length_replicate
  have hname : ∀ c ∈ [List.replicate n (97 : UInt8)], IsPlain c ∧ IsComponent c := by
    intro c hc
    rw [List.mem_singleton.1 hc]
    exact replicate_plain (Nat.lt_of_lt_of_le (by decide) hn)
  have hslash : ∀ c ∈ [List.replicate n (97 : UInt8)], slash ∉ c := fun c hc => (hname c hc).2.1
  have hnul : 0 ∉ slashJoin [List.replicate n (97 : UInt8)] :=
    nul_not_mem_slashJoin fun c hc => (hname c hc).2.2
  have hplain : ∀ c ∈ [List.replicate n (97 : UInt8)], IsPlain c := fun c hc => (hname c hc).1
  have hcomps := pathComponents_slashJoin (d := bytes "b") hslash (by decide)
  have hnames := names_kept (d := bytes "b") hplain (by decide)
  have hres : resolve (bytes ".") (bytes "..") [] (names (pathComponents
      (slashJoin [List.replicate n 97]) (bytes "b"))) = some [List.replicate n 97, bytes "b"] := by
    rw [hcomps, hnames]
    refine resolve_plain fun c hc => ?_
    rcases List.mem_append.1 hc with hc | hc
    · exact (hplain c hc).2
    · rw [List.mem_singleton.1 hc]
      decide
  have hjoin : (slashJoin [List.replicate n (97 : UInt8)]).length = n + 1 := by
    rw [slashJoin_length, weight_cons, weight_nil, hlen]
  have hb : (bytes "b").length = 1 := by decide
  have hbound : (slashJoin [List.replicate n (97 : UInt8)]).length + (bytes "b").length + 2
      ≤ ptrdiffMax := by
    rw [hjoin, hb]
    omega
  have hreturns := (h (slashJoin [List.replicate n 97]) (bytes "b") [List.replicate n 97, bytes "b"]
    hnul (by decide) hbound rfl hres (by simp)).returns
  have hplaces := hreturns.places hnul (by decide) hbound ⟨hres, by
    rw [hcomps, hnames]
    exact shallow_of_length (by
      rw [List.length_append, List.length_nil, List.length_singleton, List.length_singleton]
      decide)⟩
  have hlt := hplaces.resolve_left (by simp)
  rw [show [List.replicate n 97, bytes "b"].dropLast = [List.replicate n (97 : UInt8)] from rfl,
    hjoin] at hlt
  omega

theorem normalizePath_not_lexical :
    ¬ ∀ (basedir path : List UInt8) (kept : List (List UInt8)), 0 ∉ basedir → 0 ∉ path →
      basedir.length + path.length + 2 ≤ ptrdiffMax → basedir.head? = some slash →
      resolve (bytes ".") (bytes "..") [] (names (pathComponents basedir path)) = some kept →
      kept ≠ [] → Normalizes basedir path kept :=
  not_normalizes_of_long (Nat.le_refl intMax) (by decide)

end Test

end Ryze
