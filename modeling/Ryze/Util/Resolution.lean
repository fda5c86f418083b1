import Ryze.Util.Normalize

set_option autoImplicit false

/-! # `normalize_path` as path resolution

A relative path of named components, read behind an absolute base directory: what `normalize_path`
returns is the lexical resolution exactly if the base directory is not `/` itself and the component
in front of each `..` is, in sum, as long as the component that the `..` removes. Of more components
than an `int` counts only those count that are read (`ReadsTo`), and the kept ones have to stand where
an `int` places them. -/

namespace Ryze

open CLib LexicalPath

/-- A component that is not empty. -/
def IsName (c : List UInt8) : Prop := c ≠ [] ∧ IsComponent c

instance (c : List UInt8) : Decidable (IsComponent c) := inferInstanceAs (Decidable (_ ∧ _))

instance (c : List UInt8) : Decidable (IsName c) := inferInstanceAs (Decidable (_ ∧ _))

theorem intercalate_append {bs ps : List (List UInt8)} (hbs : bs ≠ []) (hps : ps ≠ []) :
    [slash].intercalate (bs ++ ps) = [slash].intercalate bs ++ slash :: [slash].intercalate ps := by
  have happ := slashJoin_eq (show bs ++ ps ≠ [] by simp [hbs])
  have hjoin : slashJoin (bs ++ ps) = slashJoin bs ++ slashJoin ps := List.flatMap_append
  rw [hjoin, slashJoin_eq hbs, slashJoin_eq hps, List.cons_append] at happ
  exact (List.cons.inj happ).2.symm

theorem slash_not_mem_scheme : slash ∉ bytes "http:" ∧ slash ∉ bytes "https:" := by decide

/-- A path of named components has no `//` in it. -/
theorem not_doubleSlash_start {ps : List (List UInt8)} (hne : ps ≠ []) (hps : ∀ c ∈ ps, IsName c)
    {w : List UInt8} (hw : slash ∉ w) : ¬ (w ++ [slash, slash]) <+: [slash].intercalate ps := by
  rintro ⟨rest, hrest⟩
  have hsplit := List.splitOn_intercalate slash (fun c hc => (hps c hc).2.1) hne
  rw [← hrest, List.append_assoc, List.cons_append, List.splitOn_append_cons_self_of_not_mem hw,
    show [slash] ++ rest = [] ++ slash :: rest from rfl,
    List.splitOn_append_cons_self_of_not_mem (by simp)] at hsplit
  have hempty : [] ∈ ps := by
    rw [← hsplit]
    simp
  exact (hps [] hempty).1 rfl

theorem isAbsolutePath_names {ps : List (List UInt8)} (hne : ps ≠ [])
    (hps : ∀ c ∈ ps, IsName c) : isAbsolutePath ([slash].intercalate ps) = .ok false := by
  have hhttps : strstr (bytes "https://") ([slash].intercalate ps) 0 ≠ some 0 := fun h =>
    not_doubleSlash_start hne hps slash_not_mem_scheme.2 (strstr_eq_zero_iff.1 h)
  have hhttp : strstr (bytes "http://") ([slash].intercalate ps) 0 ≠ some 0 := fun h =>
    not_doubleSlash_start hne hps slash_not_mem_scheme.1 (strstr_eq_zero_iff.1 h)
  have hnot : isHttpPath ([slash].intercalate ps) = false := by
    rw [isHttpPath, decide_eq_false hhttps, decide_eq_false hhttp]
    rfl
  obtain ⟨p, ps, rfl⟩ := List.exists_cons_of_ne_nil hne
  obtain ⟨hp, hcomp⟩ := hps p (List.mem_cons_self ..)
  obtain ⟨c, p, rfl⟩ := List.exists_cons_of_ne_nil hp
  have hc : c ≠ slash := fun h => hcomp.1 (h ▸ List.mem_cons_self ..)
  have hload : loadCell (cstrMem ([slash].intercalate ((c :: p) :: ps))) 0 = .ok c := by
    rw [List.intercalate_cons_cons_left]
    rfl
  rw [isAbsolutePath, hload, ok_bind, hnot]
  simp [hc]

/-- A directory that starts with `/` has no scheme, and its path starts at once. -/
theorem pathStart_absolute (dir : List UInt8) :
    pathStart (slash :: dir) (schemeLen (slash :: dir)) = 0 := by
  have hscheme : schemeLen (slash :: dir) = 0 := by
    have hhttps : strstr (bytes "https://") (slash :: dir) 0 ≠ some 0 := fun h => by
      obtain ⟨rest, hrest⟩ := strstr_eq_zero_iff.1 h
      exact absurd (List.cons.inj hrest).1 (by decide)
    have hhttp : strstr (bytes "http://") (slash :: dir) 0 ≠ some 0 := fun h => by
      obtain ⟨rest, hrest⟩ := strstr_eq_zero_iff.1 h
      exact absurd (List.cons.inj hrest).1 (by decide)
    rw [schemeLen, if_neg hhttps, if_neg hhttp]
  rw [hscheme, pathStart, List.drop_zero]
  simp [List.idxOf?_cons]

/-- The components in front of the `..`s are together as long as the components that the `..`s
    remove. -/
def DotDotBalanced (cs : List (List UInt8)) : Prop :=
  weight List.length (before (bytes "..") [] cs)
    = weight List.length (removed (bytes ".") (bytes "..") [] cs)

instance (cs : List (List UInt8)) : Decidable (DotDotBalanced cs) :=
  inferInstanceAs (Decidable (_ = _))

/-- The components that are read resolve to `kept`, the `..`s among them are balanced, and an `int`
    counts the bytes in front of each of `kept`, of which there are `start` in front of the first. -/
structure ReadsTo (start : Nat) (cs kept : List (List UInt8)) : Prop where
  resolves : resolve (bytes ".") (bytes "..") [] (readComponents cs) = some kept
  balanced : DotDotBalanced (readComponents cs)
  places : IntPlaces start kept

section Counted

variable {path basedir : List UInt8} {start : Nat} {cs kept : List (List UInt8)} {s : List UInt8}

/-- If nothing is read, only what is taken over from the base directory is returned. -/
theorem JoinsTo.unread (h : JoinsTo path basedir start cs) (hread : readComponents cs = [])
    (hs : normalizedString path basedir = .ok s) : s.length ≤ start := by
  have hsplits := h.splits
  rw [hread] at hsplits
  have hpre := (normalizePath_start hsplits rfl (Or.inl rfl) hs).length_le
  rwa [slashJoin_nil, List.append_nil, List.length_take,
    Nat.min_eq_left (Nat.le_of_lt h.start_lt)] at hpre

/-- A string that reaches into the last component shows that the `int`s counted right. -/
theorem JoinsTo.counted (h : JoinsTo path basedir start cs)
    (hres : resolve (bytes ".") (bytes "..") [] cs = some kept) (hmany : cs.length ≤ 2 ^ 32)
    (hs : normalizedString path basedir = .ok s)
    (hlast : start + (slashJoin kept.dropLast).length < s.length)
    (hend : start + (slashJoin kept).length < s.length + 2) :
    readComponents cs = cs ∧ IntPlaces start kept := by
  have hread : readComponents cs = cs := by
    refine readComponents_eq (Nat.le_of_not_lt fun hlt => ?_)
    have hshort := h.unread (readComponents_nil hlt hmany) hs
    omega
  have hsplits := h.splits
  rw [hread] at hsplits
  refine ⟨hread, Classical.not_not.1 fun hplaces => ?_⟩
  have hle := normalizedString_wraps hsplits hres hplaces hs (k := s.length - 1) (by omega) (by omega)
  omega

theorem JoinsTo.readsTo_iff (h : JoinsTo path basedir start cs)
    (hres : resolve (bytes ".") (bytes "..") [] cs = some kept) (hread : readComponents cs = cs)
    (hplaces : IntPlaces start kept) :
    normalizedString path basedir = .ok (basedir.take start ++ slashJoin kept) ↔
      ReadsTo start cs kept := by
  have hsplits := h.splits
  rw [hread] at hsplits
  have hiff := normalizePath_eq_iff hsplits hres hplaces
  rw [before_prev hres _ []] at hiff
  rw [hiff]
  constructor
  · intro hbalanced
    refine ⟨?_, ?_, hplaces⟩
    · rw [hread]
      exact hres
    · rw [hread]
      exact hbalanced
  · intro hreads
    have hbalanced := hreads.balanced
    rwa [hread] at hbalanced

/-- Components that are read to `kept` are written. -/
theorem JoinsTo.returns (h : JoinsTo path basedir start cs) (hreads : ReadsTo start cs kept) :
    normalizedString path basedir = .ok (basedir.take start ++ slashJoin kept) := by
  refine (normalizePath_eq_iff h.splits hreads.resolves hreads.places).2 ?_
  rw [before_prev hreads.resolves _ []]
  exact hreads.balanced

end Counted

section Absolute

variable {bs ps kept : List (List UInt8)}

/-- What is kept of names is names. -/
theorem resolve_name (hres : resolve (bytes ".") (bytes "..") [] ps = some kept)
    (hps : ∀ c ∈ ps, IsName c) : ∀ c ∈ kept, IsName c := by
  intro c hc
  rcases resolve_mem hres hc with hnil | hmem
  · cases hnil
  · exact hps c hmem

theorem joinsTo_absolute (hbs : ∀ c ∈ bs, IsName c) (hps : ∀ c ∈ ps, IsName c) (hb : bs ≠ [])
    (hne : ps ≠ [])
    (hbound : (slash :: [slash].intercalate bs).length + ([slash].intercalate ps).length + 2
      ≤ ptrdiffMax) :
    JoinsTo ([slash].intercalate ps) (slash :: [slash].intercalate bs) 0 (bs ++ ps) where
  relative := isAbsolutePath_names hne hps
  start_eq := pathStart_absolute _
  start_lt := by simp
  joined := by rw [intercalate_append hb hne]; rfl
  components := by
    intro c hc
    rcases List.mem_append.1 hc with hc | hc
    · exact (hbs c hc).2
    · exact (hps c hc).2
  ne := by simp [hb]
  last_ne := by
    rw [List.getLast_append_of_ne_nil _ hne]
    exact (hps _ (List.getLast_mem hne)).1
  base_nul := by
    rw [← slashJoin_eq hb]
    exact nul_not_mem_slashJoin fun c hc => (hbs c hc).2.2
  bound := hbound

/-- The base directory `/` contributes an empty first component. -/
theorem joinsTo_root (hps : ∀ c ∈ ps, IsName c) (hne : ps ≠ [])
    (hbound : [slash].length + ([slash].intercalate ps).length + 2 ≤ ptrdiffMax) :
    JoinsTo ([slash].intercalate ps) [slash] 0 ([] :: ps) where
  relative := isAbsolutePath_names hne hps
  start_eq := pathStart_absolute _
  start_lt := by simp
  joined := by rw [List.intercalate_cons_of_ne_nil hne]; rfl
  components := by
    intro c hc
    rcases List.mem_cons.1 hc with rfl | hc
    · exact ⟨by simp, by simp⟩
    · exact (hps c hc).2
  ne := by simp
  last_ne := by
    rw [List.getLast_cons hne]
    exact (hps _ (List.getLast_mem hne)).1
  base_nul := by decide
  bound := hbound

/-- Below `/` the resolved path is not returned: what is has an empty component in front. -/
theorem normalizePath_root (hps : ∀ c ∈ ps, IsName c) (hne : ps ≠ [])
    (hbound : [slash].length + ([slash].intercalate ps).length + 2 ≤ ptrdiffMax)
    (hres : resolve (bytes ".") (bytes "..") [] ps = some kept) (hkept : kept ≠ [])
    (hmany : ps.length < 2 ^ 32) :
    normalizedString ([slash].intercalate ps) [slash] ≠ .ok (slashJoin kept) := by
  intro hs
  have hlast := slashJoin_dropLast hkept
  have hroot : resolve (bytes ".") (bytes "..") [] ([] :: ps) = some ([] :: kept) :=
    resolve_base hres [[]]
  have hjoins := joinsTo_root hps hne hbound
  obtain ⟨c, cs, rfl⟩ := List.exists_cons_of_ne_nil hkept
  have hc : IsName c := resolve_name hres hps c (List.mem_cons_self ..)
  have hpos := List.length_pos_of_ne_nil (resolve_name hres hps _ (List.getLast_mem hkept)).1
  obtain ⟨hread, hplaces⟩ := hjoins.counted hroot
    (by rw [List.length_cons]; omega) hs
    (by
      rw [List.dropLast_cons_of_ne_nil hkept, slashJoin_cons, List.length_cons,
        List.length_append, List.length_nil]
      omega)
    (by
      rw [slashJoin_cons, List.length_cons, List.length_append, List.length_nil]
      omega)
  have hsplits := hjoins.splits
  rw [hread] at hsplits
  obtain ⟨rest, hrest⟩ := normalizePath_start hsplits hroot hplaces hs
  obtain ⟨d, c, rfl⟩ := List.exists_cons_of_ne_nil hc.1
  have hd : d = slash := (List.cons.inj (List.cons.inj hrest).2).1
  exact absurd (hd ▸ List.mem_cons_self ..) hc.2.1

end Absolute

/-- **When `normalize_path` resolves a relative path.** For a base directory of named components and a
    relative path of named components whose `..`s all remove something and leave something, the
    resolved path is returned if the base directory is not `/` and the components that are read lead
    to it with balanced `..`s. Of fewer than `2 ^ 32` components it is returned only then. -/
theorem normalizePath_resolves_iff (bs ps kept : List (List UInt8)) (hbs : ∀ c ∈ bs, IsName c)
    (hps : ∀ c ∈ ps, IsName c) (hne : ps ≠ [])
    (hbound : (slash :: [slash].intercalate bs).length + ([slash].intercalate ps).length + 2
      ≤ ptrdiffMax)
    (hres : resolve (bytes ".") (bytes "..") [] (bs ++ ps) = some kept) (hkept : kept ≠ []) :
    ((bs ++ ps).length < 2 ^ 32 →
      (normalizedString ([slash].intercalate ps) (slash :: [slash].intercalate bs)
          = .ok (slash :: [slash].intercalate kept) ↔
        bs ≠ [] ∧ ReadsTo 0 (bs ++ ps) kept)) ∧
      (bs ≠ [] ∧ ReadsTo 0 (bs ++ ps) kept →
        normalizedString ([slash].intercalate ps) (slash :: [slash].intercalate bs)
          = .ok (slash :: [slash].intercalate kept)) := by
  have hreturns : bs ≠ [] ∧ ReadsTo 0 (bs ++ ps) kept →
      normalizedString ([slash].intercalate ps) (slash :: [slash].intercalate bs)
        = .ok (slash :: [slash].intercalate kept) := by
    rintro ⟨hb, hreads⟩
    rw [(joinsTo_absolute hbs hps hb hne hbound).returns hreads, List.take_zero, List.nil_append,
      slashJoin_eq hkept]
  refine ⟨fun hmany => ⟨fun hs => ?_, hreturns⟩, hreturns⟩
  rw [← slashJoin_eq hkept] at hs
  have hlast := slashJoin_dropLast hkept
  have hnames : ∀ c ∈ bs ++ ps, IsName c := fun c hc => (List.mem_append.1 hc).elim (hbs c) (hps c)
  have hpos := List.length_pos_of_ne_nil (resolve_name hres hnames _ (List.getLast_mem hkept)).1
  by_cases hb : bs = []
  · subst hb
    exact absurd hs (normalizePath_root hps hne hbound hres hkept hmany)
  · have hjoins := joinsTo_absolute hbs hps hb hne hbound
    obtain ⟨hread, hplaces⟩ := hjoins.counted hres (Nat.le_of_lt hmany) hs (by omega) (by omega)
    have hiff := hjoins.readsTo_iff hres hread hplaces
    rw [List.take_zero, List.nil_append] at hiff
    exact ⟨hb, hiff.1 hs⟩

/-- `x/../c` below `/a/bb`: the `..` removes the component in front of it. -/
theorem normalizePath_resolves_dotdot :
    normalizedString (bytes "x/../c") (bytes "/a/bb") = .ok (bytes "/a/bb/c") :=
  (normalizePath_resolves_iff [bytes "a", bytes "bb"] [bytes "x", bytes "..", bytes "c"]
    [bytes "a", bytes "bb", bytes "c"] (by decide) (by decide) (by decide) (by decide) (by decide)
    (by decide)).2 ⟨by decide, by decide, by decide, by decide⟩

/-- `../../c` below `/a/b` gives `/` and not `/c`. -/
theorem normalizePath_dotdot_dotdot :
    ¬ ∀ bs ps kept : List (List UInt8), (∀ c ∈ bs, IsName c) → (∀ c ∈ ps, IsName c) → ps ≠ [] →
      (slash :: [slash].intercalate bs).length + ([slash].intercalate ps).length + 2
        ≤ ptrdiffMax →
      resolve (bytes ".") (bytes "..") [] (bs ++ ps) = some kept → kept ≠ [] →
      normalizedString ([slash].intercalate ps) (slash :: [slash].intercalate bs)
        = .ok (slash :: [slash].intercalate kept) := by
  intro h
  have hc := h [bytes "a", bytes "b"] [bytes "..", bytes "..", bytes "c"] [bytes "c"] (by decide)
    (by decide) (by decide) (by decide) (by decide) (by decide)
  have hrun : normalizedString (bytes "../../c") (bytes "/a/b") = .ok (bytes "/") := by
    decide +kernel
  exact absurd (hrun.symm.trans hc) (by decide)

end Ryze
