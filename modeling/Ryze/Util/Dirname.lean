import Ryze.Util.Resolution

set_option autoImplicit false

/-! # Imports relative to a module's URL

`resolve_module_callback` resolves a specifier against `dirname` of the importing module. For a URL
the two functions agree on where the host ends as long as the module is not directly below the host:
then `dirname` leaves no `/` behind the host, and `normalize_path` takes the host for the first
component and drops its first byte. -/

namespace Ryze

open CLib LexicalPath

/-! ## `dirname` -/

/-- The first `n` bytes of a string, as a string. -/
theorem copyPrefix_string {path : List UInt8} {n : Nat} (hn : n ≤ path.length) (hnul : 0 ∉ path)
    (hmax : n + 1 ≤ ptrdiffMax) :
    (copyPrefix path n >>= cstr) = .ok (path.take n) := by
  have hmod : sizeMod = 2 ^ 64 := rfl
  have hptr : ptrdiffMax = 2 ^ 63 - 1 := rfl
  have hlen : (path.take n).length = n := by
    rw [List.length_take]
    omega
  have hsrc : (cstrMem path).take n = cells (path.take n) := by
    rw [cstrMem, cells_append, List.take_append_of_le_length (by rw [cells_length]; exact hn), cells,
      cells, List.map_take]
  have hfull : filled (n + 1) (path.take n ++ [0]) = cells (path.take n) ++ [some 0] := by
    have hone : n + 1 = (path.take n ++ [0]).length := by
      rw [List.length_append, hlen, List.length_singleton]
    rw [hone, filled_full, cells_append]
    rfl
  rw [copyPrefix, sizeAdd_of_lt (by omega), malloc_eq_filled (by omega), ok_bind,
    memcpy_filled (show 0 = ([] : List UInt8).length from rfl) _ _ hsrc hlen.symm
      (by rw [hlen, List.length_nil]; omega), ok_bind, List.nil_append,
    store_filled (by rw [hlen]) 0 (by rw [hlen]; omega), ok_bind, hfull]
  exact cstr_cells _ (fun h => hnul (List.mem_of_mem_take h)) _

/-- The loop goes back over the last component, with a `/` at its end or without, and stops at the `/`
    in front of it. -/
theorem dirnameLoop_back {pre last : List UInt8} (hlast : last ≠ []) (hslash : slash ∉ last.dropLast)
    {start : Nat} (hstart : start ≤ pre.length) {k : Nat} (hk : k ≤ last.length) :
    dirnameLoop (pre ++ slash :: last) start (pre.length + k) = .ok pre.length := by
  have hlen : (pre ++ slash :: last).length = pre.length + 1 + last.length := by
    simp only [List.length_append, List.length_cons]
    omega
  have hpos := List.length_pos_of_ne_nil hlast
  induction k with
  | zero =>
      have hload : loadCell (cstrMem (pre ++ slash :: last)) pre.length = .ok slash := by
        rw [cstrMem, loadCell, List.append_assoc, cells_append,
          List.getElem?_append_right (by simp), cells_length, Nat.sub_self]
        rfl
      rw [Nat.add_zero]
      cases hn : pre.length with
      | zero =>
          rw [hn] at hload
          rw [dirnameLoop, if_pos (by omega), hload, ok_bind, if_pos ⟨rfl, by omega⟩]
          rfl
      | succ n =>
          rw [hn] at hload
          rw [dirnameLoop, if_pos (by omega), hload, ok_bind, if_pos ⟨rfl, by omega⟩]
          rfl
  | succ k ih =>
      obtain ⟨c, hc⟩ : ∃ c, last[k]? = some c := ⟨_, List.getElem?_eq_getElem (by omega)⟩
      have hskip : ¬ (c = slash ∧ pre.length + k + 1 ≠ (pre ++ slash :: last).length - 1) := by
        rintro ⟨rfl, hend⟩
        have hin : k < last.length - 1 := by omega
        have hget : last.dropLast[k]? = some slash := by
          rw [List.getElem?_dropLast, if_pos hin, hc]
        exact hslash (List.mem_of_getElem? hget)
      have hload : loadCell (cstrMem (pre ++ slash :: last)) (pre.length + k + 1) = .ok c := by
        have hget : (pre ++ slash :: last ++ [0])[pre.length + k + 1]? = some c := by
          rw [List.append_assoc, List.getElem?_append_right (by omega),
            show pre.length + k + 1 - pre.length = k + 1 by omega, List.cons_append,
            List.getElem?_cons_succ, List.getElem?_append_left (by omega), hc]
        rw [cstrMem, loadCell, cells, List.getElem?_map, hget]
        rfl
      rw [← Nat.add_assoc, dirnameLoop, if_pos (by omega), hload, ok_bind, if_neg hskip]
      exact ih (by omega)

/-- The directory of a path whose last component stands behind more than its scheme. -/
theorem dirname_string {pre last : List UInt8} (hlast : last ≠ []) (hslash : slash ∉ last)
    (hstart : schemeLen (pre ++ slash :: last) < pre.length) (hnul : 0 ∉ pre ++ slash :: last)
    (hmax : (pre ++ slash :: last).length + 2 ≤ ptrdiffMax) :
    (dirname (pre ++ slash :: last) >>= cstr) = .ok pre := by
  have hlen : (pre ++ slash :: last).length = pre.length + 1 + last.length := by
    simp only [List.length_append, List.length_cons]
    omega
  have hloop := dirnameLoop_back hlast (fun h => hslash (List.dropLast_subset _ h))
    (Nat.le_of_lt hstart) (Nat.le_refl last.length)
  have htake : (pre ++ slash :: last).take pre.length = pre := List.take_left' rfl
  have hcopy := copyPrefix_string (n := pre.length) (by omega) hnul (by omega)
  rw [htake] at hcopy
  rw [dirname, if_neg (by omega), show (pre ++ slash :: last).length - 1 = pre.length + last.length
    by omega, hloop, ok_bind, if_neg (by omega)]
  exact hcopy

/-! ## What stands behind the base directory's scheme and host -/

section Behind

variable {path basedir : List UInt8} {start : Nat} {str : List (Option UInt8)}
  {cs kept : List (List UInt8)} {s : List UInt8}

/-- Behind the bytes that are taken over from the base directory comes a `/`, if anything. -/
theorem JoinsTo.slash_behind (h : JoinsTo path basedir start cs)
    (hres : resolve (bytes ".") (bytes "..") [] cs = some kept) (hmany : cs.length ≤ 2 ^ 32)
    (hs : normalizedString path basedir = .ok s)
    (hlast : start + (slashJoin kept.dropLast).length < s.length)
    (hend : start + (slashJoin kept).length < s.length + 2) {c : UInt8} (hc : s[start]? = some c) :
    c = slash := by
  obtain ⟨hread, hplaces⟩ := h.counted hres hmany hs hlast hend
  have hsplits := h.splits
  rw [hread] at hsplits
  obtain ⟨rest, hrest⟩ := normalizePath_start hsplits hres hplaces hs
  have hlen : (basedir.take start).length = start := by
    rw [List.length_take, Nat.min_eq_left (Nat.le_of_lt h.start_lt)]
  have hget : (basedir.take start ++ slashJoin kept)[start]? = some c := by
    rw [← hrest, List.getElem?_append_left (by omega), hc]
  rw [List.getElem?_append_right (by omega), hlen, Nat.sub_self] at hget
  cases kept with
  | nil => cases hget
  | cons d kept =>
      cases hget
      rfl

/-- Once the stack was popped when it was empty, nothing can be pushed any more. -/
theorem stackLoop_below {m : List (Option UInt8)} (hcs : ∀ c ∈ cs, 0 ∉ c)
    (hres : resolve (bytes ".") (bytes "..") [] cs = some kept) {p prev : Nat} {st st' : StackState}
    (hp : str.drop p = cells (nulJoin cs) ++ m) (hidx : st.index = -1)
    (h : stackLoop str cs.length p prev st = .ok st') : st'.index = -1 := by
  induction cs generalizing p prev st with
  | nil =>
      cases h
      exact hidx
  | cons c cs ih =>
      obtain ⟨hc, hnext⟩ := component_at (hcs c (List.mem_cons_self ..)) hp
      rw [List.length_cons, stackLoop, hc, ok_bind] at h
      obtain ⟨st₁, hstep, h⟩ := bind_eq_ok.1 h
      have hdd := first_ne_dotdot hres
      by_cases hd : c = bytes "."
      · rw [hd, stackStep_dot] at hstep
        cases hstep
        rw [resolve, resolveStep, if_neg hdd, if_pos hd, Option.bind_some] at hres
        exact ih (fun d hd => hcs d (List.mem_cons_of_mem _ hd)) hres hnext hidx h
      · rw [stackStep, if_pos hdd, if_pos hd, hidx, store, if_neg (by omega)] at hstep
        cases hstep

/-- If nothing is on the stack, only the bytes that are taken over are returned. -/
theorem SplitsTo.below (h : SplitsTo path basedir start str cs)
    (hidx : ∀ st, stackLoop str cs.length 0 0 ⟨0, List.replicate cs.length none, 0⟩ = .ok st →
      st.index ≤ 0) (hs : normalizedString path basedir = .ok s) : s.length ≤ start := by
  rw [normalizedString, h.run, bind_assoc] at hs
  obtain ⟨st, hloop, hs⟩ := bind_eq_ok.1 hs
  have hstart := h.start_lt
  rw [Int.toNat_of_nonpos (hidx st hloop)] at hs
  have hlen : (basedir.take start ++ slashJoin []).length = start + (slashJoin []).length := by
    rw [List.length_append, List.length_take]
    omega
  have hnul : 0 ∉ basedir.take start ++ slashJoin [] := by
    rw [slashJoin_nil, List.append_nil]
    exact fun hmem => h.base_nul (List.mem_of_mem_take hmem)
  have hstr : ([] : List Nat).map (fun p => cstr (str.drop p)) = ([] : List (List UInt8)).map .ok :=
    rfl
  have htotal : sizeAdd st.total start < sizeMod := Nat.mod_lt _ (by decide)
  obtain ⟨htake, -⟩ := writePlaces_string hstart hstr (Or.inl rfl) htotal hnul hlen hs
  rw [htake, List.length_take, hlen, slashJoin_nil, List.length_nil]
  omega

theorem SplitsTo.popped (h : SplitsTo path basedir start str (bytes ".." :: cs))
    (hres : resolve (bytes ".") (bytes "..") [] cs = some kept)
    (hs : normalizedString path basedir = .ok s) : s.length ≤ start := by
  refine h.below (fun st hloop => ?_) hs
  obtain ⟨m, hm⟩ := h.holds
  obtain ⟨hc, hnext⟩ := component_at (p := 0) (h.components _ (List.mem_cons_self ..)).2 hm
  rw [List.length_cons, stackLoop, hc, ok_bind, stackStep_dotdot hc, ok_bind] at hloop
  have hbelow := stackLoop_below
    (fun c hc => (h.components c (List.mem_cons_of_mem _ hc)).2) hres hnext rfl hloop
  omega

end Behind

/-! ## URLs -/

/-- The URL of a module: `http://` or `https://`, a host, and at least one component. -/
structure ModuleUrl where
  scheme : List UInt8
  host : List UInt8
  components : List (List UInt8)
  scheme_http : scheme = bytes "https://" ∨ scheme = bytes "http://"
  host_name : IsName host
  components_name : ∀ c ∈ components, IsName c
  components_ne : components ≠ []

def ModuleUrl.origin (u : ModuleUrl) : List UInt8 := u.scheme ++ u.host

def ModuleUrl.wire (u : ModuleUrl) : List UInt8 := u.origin ++ slashJoin u.components

/-- The components of the directory the module is in. -/
def ModuleUrl.dir (u : ModuleUrl) : List (List UInt8) := u.components.dropLast

/-- The path that `resolve_module_callback` opens for a specifier in the module at `url`. -/
def resolveImport (specifier url : List UInt8) : CRun (List UInt8) := do
  let dir ← dirname url
  let basedir ← cstr dir
  normalizedString specifier basedir

theorem schemeLen_scheme {scheme : List UInt8}
    (h : scheme = bytes "https://" ∨ scheme = bytes "http://") (rest : List UInt8) :
    schemeLen (scheme ++ rest) = scheme.length := by
  rcases h with rfl | rfl
  · rw [schemeLen, if_pos (strstr_eq_zero_iff.2 (List.prefix_append _ _))]
    rfl
  · have hhttps : strstr (bytes "https://") (bytes "http://" ++ rest) 0 ≠ some 0 := fun h => by
      obtain ⟨t, ht⟩ := strstr_eq_zero_iff.1 h
      have hfifth := congrArg (·[4]?) ht
      exact absurd (Option.some.inj hfifth) (by decide)
    rw [schemeLen, if_neg hhttps, if_pos (strstr_eq_zero_iff.2 (List.prefix_append _ _))]
    rfl

theorem idxOf?_slash {w : List UInt8} (hw : slash ∉ w) (rest : List UInt8) :
    (w ++ slash :: rest).idxOf? slash = some w.length := by
  induction w with
  | nil => simp [List.idxOf?_cons]
  | cons c w ih =>
      have hc : c ≠ slash := fun h => hw (h ▸ List.mem_cons_self ..)
      rw [List.cons_append, List.idxOf?_cons, ih (fun h => hw (List.mem_cons_of_mem _ h))]
      simp [hc]

namespace ModuleUrl

variable (u : ModuleUrl)

theorem scheme_nul : 0 ∉ u.scheme := by
  rcases u.scheme_http with h | h
  · rw [h]
    decide
  · rw [h]
    decide

theorem origin_nul : 0 ∉ u.origin := by
  intro h
  rcases List.mem_append.1 h with h | h
  · exact u.scheme_nul h
  · exact u.host_name.2.2 h

theorem host_pos : 0 < u.host.length := List.length_pos_of_ne_nil u.host_name.1

theorem dir_name {c : List UInt8} (hc : c ∈ u.dir) : IsName c :=
  u.components_name c (List.dropLast_subset _ hc)

theorem dir_nul : 0 ∉ u.origin ++ slashJoin u.dir := by
  intro h
  rcases List.mem_append.1 h with h | h
  · exact u.origin_nul h
  · exact nul_not_mem_slashJoin (fun c hc => (u.dir_name hc).2.2) h

theorem wire_eq : u.wire = (u.origin ++ slashJoin u.dir)
    ++ slash :: u.components.getLast u.components_ne := by
  have hjoin : slashJoin u.components
      = slashJoin u.dir ++ slashJoin [u.components.getLast u.components_ne] := by
    rw [slashJoin, slashJoin, slashJoin, ← List.flatMap_append, dir, List.dropLast_append_getLast]
  rw [wire, hjoin, slashJoin_cons, slashJoin_nil, List.append_nil, List.append_assoc]

/-- The directory of a module's URL. -/
theorem dirname_wire (hmax : u.wire.length + 2 ≤ ptrdiffMax) :
    (dirname u.wire >>= cstr) = .ok (u.origin ++ slashJoin u.dir) := by
  have hlast := u.components_name _ (List.getLast_mem u.components_ne)
  have hscheme : schemeLen u.wire = u.scheme.length := by
    rw [wire, origin, List.append_assoc]
    exact schemeLen_scheme u.scheme_http _
  have hhost := u.host_pos
  have hwire := u.wire_eq
  rw [hwire] at hscheme hmax ⊢
  refine dirname_string hlast.1 hlast.2.1 ?_ ?_ hmax
  · rw [hscheme, origin]
    simp only [List.length_append]
    omega
  · intro h
    rcases List.mem_append.1 h with h | h
    · exact u.dir_nul h
    · rcases List.mem_cons.1 h with h | h
      · exact absurd h (by decide)
      · exact hlast.2.2 h

/-- Where `normalize_path` finds the path in the directory of a module that is not directly below
    the host. -/
theorem pathStart_dir (h : u.dir ≠ []) :
    pathStart (u.origin ++ slashJoin u.dir) (schemeLen (u.origin ++ slashJoin u.dir))
      = u.origin.length := by
  have hscheme : schemeLen (u.origin ++ slashJoin u.dir) = u.scheme.length := by
    rw [origin, List.append_assoc]
    exact schemeLen_scheme u.scheme_http _
  rw [hscheme, pathStart, origin, List.append_assoc, List.drop_left, slashJoin_eq h,
    idxOf?_slash u.host_name.2.1, List.length_append]
  rfl

/-- Directly below the host there is no `/` behind the host, and `start` stays at the host. -/
theorem pathStart_origin : pathStart u.origin (schemeLen u.origin) = u.scheme.length := by
  have hnone : u.host.idxOf? slash = none := List.idxOf?_eq_none_iff.2 u.host_name.2.1
  rw [origin, schemeLen_scheme u.scheme_http, pathStart, List.drop_left, hnone]
  rfl

theorem joinsTo_dir {ps : List (List UInt8)} (h : u.dir ≠ []) (hps : ∀ c ∈ ps, IsName c)
    (hne : ps ≠ [])
    (hbound : (u.origin ++ slashJoin u.dir).length + ([slash].intercalate ps).length + 2
      ≤ ptrdiffMax) :
    JoinsTo ([slash].intercalate ps) (u.origin ++ slashJoin u.dir) u.origin.length
      (u.dir ++ ps) where
  relative := isAbsolutePath_names hne hps
  start_eq := u.pathStart_dir h
  start_lt := by
    rw [List.length_append, slashJoin_eq h, List.length_cons]
    omega
  joined := by
    rw [← List.drop_drop, List.drop_left, slashJoin_eq h, intercalate_append h hne]
    rfl
  components := by
    intro c hc
    rcases List.mem_append.1 hc with hc | hc
    · exact (u.dir_name hc).2
    · exact (hps c hc).2
  ne := by simp [h]
  last_ne := by
    rw [List.getLast_append_of_ne_nil _ hne]
    exact (hps _ (List.getLast_mem hne)).1
  base_nul := u.dir_nul
  bound := hbound

/-- Directly below the host `normalize_path` takes the host without its first byte for a component. -/
theorem joinsTo_origin {ps : List (List UInt8)} (hps : ∀ c ∈ ps, IsName c) (hne : ps ≠ [])
    (hbound : u.origin.length + ([slash].intercalate ps).length + 2 ≤ ptrdiffMax) :
    JoinsTo ([slash].intercalate ps) u.origin u.scheme.length (u.host.tail :: ps) where
  relative := isAbsolutePath_names hne hps
  start_eq := u.pathStart_origin
  start_lt := by
    have hhost := u.host_pos
    rw [origin, List.length_append]
    omega
  joined := by
    rw [origin, ← List.drop_drop, List.drop_left, List.intercalate_cons_of_ne_nil hne,
      List.drop_one]
    simp
  components := by
    intro c hc
    rcases List.mem_cons.1 hc with rfl | hc
    · exact ⟨fun h => u.host_name.2.1 (List.mem_of_mem_tail h),
        fun h => u.host_name.2.2 (List.mem_of_mem_tail h)⟩
    · exact (hps c hc).2
  ne := by simp
  last_ne := by
    rw [List.getLast_cons hne]
    exact (hps _ (List.getLast_mem hne)).1
  base_nul := u.origin_nul
  bound := hbound

/-- Nothing that is returned then starts with the origin and a `/`. -/
theorem origin_not_prefix {ps kept : List (List UInt8)} (hps : ∀ c ∈ ps, IsName c) (hne : ps ≠ [])
    (hbound : u.origin.length + ([slash].intercalate ps).length + 2 ≤ ptrdiffMax)
    (hres : resolve (bytes ".") (bytes "..") [] ps = some kept) (hmany : ps.length < 2 ^ 32)
    {t : List UInt8} (ht : normalizedString ([slash].intercalate ps) u.origin = .ok t) :
    ¬ (u.origin ++ slash :: [slash].intercalate kept) <+: t := by
  intro hpre
  have hjoins := u.joinsTo_origin hps hne hbound
  obtain ⟨d, hhost⟩ : ∃ d, u.host = d :: u.host.tail :=
    ⟨_, (List.cons_head_tail u.host_name.1).symm⟩
  have hd : d ≠ slash := fun h => u.host_name.2.1 (by rw [hhost, h]; exact List.mem_cons_self ..)
  have hlen := hpre.length_le
  have horigin : u.origin.length = u.scheme.length + (u.host.tail.length + 1) := by
    rw [origin, List.length_append]
    conv_lhs => rw [hhost, List.length_cons]
  rw [List.length_append, List.length_cons] at hlen
  have hget : t[u.scheme.length]? = some d := by
    obtain ⟨rest, hrest⟩ := hpre
    rw [← hrest, origin, hhost]
    simp
  obtain ⟨hlast, hend⟩ := slashJoin_length_le kept
  have hmany' : (u.host.tail :: ps).length ≤ 2 ^ 32 := by
    rw [List.length_cons]
    omega
  by_cases hdd : u.host.tail = bytes ".."
  · -- the host pops the empty stack
    by_cases hcount : (u.host.tail :: ps).length ≤ intMax
    · have hsplits := hjoins.splits
      rw [readComponents_eq hcount, hdd] at hsplits
      have hshort := hsplits.popped hres ht
      omega
    · have hshort := hjoins.unread (readComponents_nil (Nat.lt_of_not_le hcount) hmany') ht
      omega
  · by_cases hdot : u.host.tail = bytes "."
    · have hwhole : resolve (bytes ".") (bytes "..") [] (u.host.tail :: ps) = some kept := by
        rw [resolve, resolveStep, if_neg hdd, if_pos hdot, Option.bind_some]
        exact hres
      exact hd (hjoins.slash_behind hwhole hmany' ht (by omega) (by omega) hget)
    · have hwhole : resolve (bytes ".") (bytes "..") [] (u.host.tail :: ps)
          = some (u.host.tail :: kept) := by
        rw [resolve, resolveStep, if_neg hdd, if_neg hdot, Option.bind_some]
        exact resolve_base hres [u.host.tail]
      refine hd (hjoins.slash_behind hwhole hmany' ht ?_ ?_ hget)
      · by_cases hnil : kept = []
        · subst hnil
          rw [List.dropLast_singleton, slashJoin_nil, List.length_nil]
          omega
        · rw [List.dropLast_cons_of_ne_nil hnil, slashJoin_cons, List.length_cons,
            List.length_append]
          omega
      · rw [slashJoin_cons, List.length_cons, List.length_append]
        omega

/-- An import is resolved below the origin and the path's directory. -/
theorem resolveImport_wire (specifier : List UInt8) (hbound : u.wire.length + 2 ≤ ptrdiffMax) :
    resolveImport specifier u.wire
      = normalizedString specifier (u.origin ++ slashJoin u.dir) := by
  obtain ⟨b, hb, hs⟩ := bind_eq_ok.1 (u.dirname_wire hbound)
  rw [resolveImport, hb, ok_bind, hs, ok_bind]

end ModuleUrl

/-- **When an import stays on its module's origin.** A relative specifier whose `..`s stay below the
    root of the URL's path leads to a URL that starts with the module's scheme and host, `/` and the
    resolved path if the module is not directly below the host, something remains of the path, and
    the components that are read lead to it with balanced `..`s. Of fewer than `2 ^ 32` components
    it does so only then. -/
theorem resolveImport_sameOrigin_iff (u : ModuleUrl) (ps kept : List (List UInt8))
    (hps : ∀ c ∈ ps, IsName c) (hne : ps ≠ [])
    (hbound : u.wire.length + ([slash].intercalate ps).length + 2 ≤ ptrdiffMax)
    (hres : resolve (bytes ".") (bytes "..") [] (u.dir ++ ps) = some kept) :
    ((u.dir ++ ps).length < 2 ^ 32 →
      ((∃ t, resolveImport ([slash].intercalate ps) u.wire = .ok t ∧
          (u.scheme ++ u.host ++ slash :: [slash].intercalate kept) <+: t) ↔
        2 ≤ u.components.length ∧ kept ≠ [] ∧ ReadsTo u.origin.length (u.dir ++ ps) kept)) ∧
      (2 ≤ u.components.length ∧ kept ≠ [] ∧ ReadsTo u.origin.length (u.dir ++ ps) kept →
        ∃ t, resolveImport ([slash].intercalate ps) u.wire = .ok t ∧
          (u.scheme ++ u.host ++ slash :: [slash].intercalate kept) <+: t) := by
  have hdirLen : u.dir.length = u.components.length - 1 := List.length_dropLast
  have hwireLen := congrArg List.length u.wire_eq
  rw [List.length_append, List.length_cons] at hwireLen
  have htake : (u.origin ++ slashJoin u.dir).take u.origin.length = u.origin := List.take_left' rfl
  rw [u.resolveImport_wire _ (by omega)]
  have hreturns : 2 ≤ u.components.length ∧ kept ≠ [] ∧
      ReadsTo u.origin.length (u.dir ++ ps) kept →
      ∃ t, normalizedString ([slash].intercalate ps) (u.origin ++ slashJoin u.dir) = .ok t ∧
        (u.scheme ++ u.host ++ slash :: [slash].intercalate kept) <+: t := by
    rintro ⟨htwo, hkept, hreads⟩
    have hdir : u.dir ≠ [] := List.ne_nil_of_length_pos (by omega)
    have hrun := (u.joinsTo_dir hdir hps hne (by omega)).returns hreads
    rw [htake, slashJoin_eq hkept] at hrun
    exact ⟨_, hrun, List.prefix_refl _⟩
  refine ⟨fun hmany => ⟨?_, hreturns⟩, hreturns⟩
  rintro ⟨t, ht, hpre⟩
  by_cases hdir : u.dir = []
  · rw [hdir, slashJoin_nil, List.append_nil] at ht
    rw [hdir, List.nil_append] at hres hmany
    rw [hdir, slashJoin_nil, List.append_nil] at hwireLen
    exact absurd hpre (u.origin_not_prefix hps hne (by omega) hres hmany ht)
  · have hpos := List.length_pos_of_ne_nil hdir
    have hjoins := u.joinsTo_dir hdir hps hne (by omega)
    have hlen := hpre.length_le
    rw [List.length_append, List.length_cons, ← ModuleUrl.origin] at hlen
    obtain ⟨hlast, hend⟩ := slashJoin_length_le kept
    obtain ⟨hread, hplaces⟩ := hjoins.counted hres (Nat.le_of_lt hmany) ht (by omega) (by omega)
    have hsplits := hjoins.splits
    rw [hread] at hsplits
    have hfull := normalizePath_start hsplits hres hplaces ht
    have hkept : kept ≠ [] := by
      rintro rfl
      have hshort := hfull.length_le
      rw [htake, slashJoin_nil, List.append_nil] at hshort
      omega
    have hiff := hjoins.readsTo_iff hres hread hplaces
    rw [htake, slashJoin_eq hkept] at hfull hiff
    have heq : t = u.origin ++ slash :: [slash].intercalate kept :=
      hfull.eq_of_length (Nat.le_antisymm hfull.length_le hpre.length_le)
    rw [heq] at ht
    exact ⟨by omega, hkept, hiff.1 ht⟩

/-- `http://h/a/m.js`. -/
def nestedUrl : ModuleUrl where
  scheme := bytes "http://"
  host := bytes "h"
  components := [bytes "a", bytes "m.js"]
  scheme_http := Or.inr rfl
  host_name := by decide
  components_name := by decide
  components_ne := by decide

theorem resolveImport_sameOrigin_nested : ∃ t,
    resolveImport (bytes "./b.js") (bytes "http://h/a/m.js") = .ok t ∧ bytes "http://h/a/b.js" <+: t :=
  (resolveImport_sameOrigin_iff nestedUrl [bytes ".", bytes "b.js"] [bytes "a", bytes "b.js"]
    (by decide) (by decide) (by decide) (by decide)).2
    ⟨by decide, by decide, by decide, by decide, by decide⟩

/-- `https://host/m.js`. -/
def topUrl : ModuleUrl where
  scheme := bytes "https://"
  host := bytes "host"
  components := [bytes "m.js"]
  scheme_http := Or.inl rfl
  host_name := by decide
  components_name := by decide
  components_ne := by decide

/-- `./b.js` in `https://host/m.js` gives `https:///ost/b.js`. -/
theorem resolveImport_top : ¬ ∀ (u : ModuleUrl) (ps kept : List (List UInt8)),
    (∀ c ∈ ps, IsName c) → ps ≠ [] →
    u.wire.length + ([slash].intercalate ps).length + 2 ≤ ptrdiffMax →
    resolve (bytes ".") (bytes "..") [] (u.dir ++ ps) = some kept →
    ∃ t, resolveImport ([slash].intercalate ps) u.wire = .ok t ∧
      (u.scheme ++ u.host ++ slash :: [slash].intercalate kept) <+: t := by
  intro h
  obtain ⟨t, ht, hpre⟩ := h topUrl [bytes ".", bytes "b.js"] [bytes "b.js"] (by decide)
    (by decide) (by decide) (by decide)
  have hrun : resolveImport (bytes "./b.js") (bytes "https://host/m.js")
      = .ok (bytes "https:///ost/b.js") := by decide +kernel
  cases hrun.symm.trans ht
  exact absurd hpre (by decide)

end Ryze
