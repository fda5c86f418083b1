import Ryze.Lib.LexicalPath
import Ryze.Util.Path

set_option autoImplicit false

/-! # Where the components of a result are placed

Both `normalize_path`s write each kept component behind a `/`, at a place that an `int` counts. As long
as no component stands behind `2 ^ 31 - 2` bytes (`IntPlaces`), each comes to stand where it belongs.
Of a longer result the places are counted modulo `2 ^ 32`: a write is outside the block, or over what
was written before (`PlacedInside`), and the end of the result is not written (`placeAll_wraps`). -/

namespace Ryze

open CLib LexicalPath

/-- The components of a path, each behind a `/`. -/
def slashJoin (cs : List (List UInt8)) : List UInt8 := cs.flatMap (slash :: ·)

@[simp] theorem slashJoin_nil : slashJoin [] = [] := rfl

@[simp] theorem slashJoin_cons (c : List UInt8) (cs : List (List UInt8)) :
    slashJoin (c :: cs) = slash :: (c ++ slashJoin cs) := rfl

theorem slashJoin_length (cs : List (List UInt8)) :
    (slashJoin cs).length = weight (fun c => c.length + 1) cs := by
  induction cs with
  | nil => rfl
  | cons c cs ih =>
      rw [slashJoin_cons, List.length_cons, List.length_append, ih, weight_cons]
      omega

theorem slashJoin_dropLast {cs : List (List UInt8)} (hne : cs ≠ []) :
    (slashJoin cs).length
      = (slashJoin cs.dropLast).length + 1 + (cs.getLast hne).length := by
  conv_lhs => rw [← List.dropLast_append_getLast hne, slashJoin_length]
  rw [weight_append, weight_cons, weight_nil, ← slashJoin_length]
  omega

/-! ## Places -/

/-- An `int` counts the bytes in front of each of the components `cs`, of which there are `j` in front
    of the first one. -/
def IntPlaces (j : Nat) (cs : List (List UInt8)) : Prop :=
  cs = [] ∨ j + (slashJoin cs.dropLast).length < intMax

instance (j : Nat) (cs : List (List UInt8)) : Decidable (IntPlaces j cs) :=
  inferInstanceAs (Decidable (_ ∨ _))

/-- Each of the components `cs`, with its `/` in front and `e` bytes behind it, is inside a block of
    `n` cells, where the first one is placed behind `j` bytes and the places are counted modulo
    `2 ^ 32`. -/
def PlacedInside (e n : Nat) : (j : Nat) → List (List UInt8) → Prop
  | _, [] => True
  | j, c :: cs => j % 2 ^ 32 < intMax ∧ j % 2 ^ 32 + 1 + c.length + e ≤ n ∧
      PlacedInside e n (j + 1 + c.length) cs

theorem intPlaces_cons {j : Nat} {c : List UInt8} {cs : List (List UInt8)} :
    IntPlaces j (c :: cs) ↔ j < intMax ∧ IntPlaces (j + 1 + c.length) cs := by
  by_cases hcs : cs = []
  · subst hcs
    simp [IntPlaces]
  · have hlen : (slashJoin (c :: cs).dropLast).length
        = 1 + c.length + (slashJoin cs.dropLast).length := by
      rw [List.dropLast_cons_of_ne_nil hcs, slashJoin_cons, List.length_cons, List.length_append]
      omega
    simp only [IntPlaces, hlen, hcs, reduceCtorEq, false_or]
    omega

/-- Up to `2 ^ 31 - 2` bytes in front of it, the last component decides. -/
theorem placedInside_iff {e n j : Nat} {cs : List (List UInt8)} (h : IntPlaces j cs) :
    PlacedInside e n j cs ↔ cs = [] ∨ j + (slashJoin cs).length + e ≤ n := by
  induction cs generalizing j with
  | nil => simp [PlacedInside]
  | cons c cs ih =>
      obtain ⟨hj, hrest⟩ := intPlaces_cons.1 h
      have hmod : j % 2 ^ 32 = j := Nat.mod_eq_of_lt (by simp only [intMax] at hj; omega)
      rw [PlacedInside, hmod, ih hrest, slashJoin_cons, List.length_cons, List.length_append]
      by_cases hcs : cs = []
      · subst hcs
        simp only [slashJoin_nil, List.length_nil, true_or, and_true, reduceCtorEq, false_or]
        omega
      · simp only [hcs, false_or, reduceCtorEq]
        omega

/-! ## One component -/

/-- A `/` at `j` and the component `c`, with which `src` starts, behind it, with `e` more bytes. -/
def place (e : Nat) (src : List (Option UInt8)) (c : List UInt8) (j : Int)
    (b : List (Option UInt8)) : CRun (List (Option UInt8)) := do
  let b ← store b j slash
  memcpyAt b (toInt32 (j + 1)) src (c.length + e)

section Place

variable {e n : Nat} {src b b' : List (Option UInt8)} {c w : List UInt8} {j : Int}

/-- What a component that was placed tells of its place. -/
theorem place_inv (hj : j ≤ intMax) (h : place e src c j b = .ok b') :
    0 ≤ j ∧ j < intMax ∧ j + 1 + c.length + e ≤ b.length ∧ b'.length = b.length ∧
      ∀ k : Nat, j + 1 + c.length + e ≤ k → b'[k]? = b[k]? := by
  obtain ⟨b₁, hstore, hcopy⟩ := bind_eq_ok.1 h
  have hlen := store_length hstore
  have hframe := getElem?_store hstore
  rw [memcpyAt] at hcopy
  split at hcopy
  · next hdst =>
      have hnonneg : 0 ≤ j := by
        rw [store] at hstore
        split at hstore
        · next hin => exact hin.1
        · cases hstore
      obtain ⟨i, rfl⟩ := Int.eq_ofNat_of_zero_le hnonneg
      have hlt : i + 1 < 2 ^ 31 := by
        have hmod := (toInt32_nonneg_iff (i + 1)).1 (by exact_mod_cast hdst)
        simp only [intMax] at hj
        omega
      have hplace : toInt32 ((i : Int) + 1) = (i + 1 : Nat) := toInt32_of_lt hlt
      rw [hplace, Int.toNat_natCast] at hcopy
      obtain ⟨hlen', hroom⟩ := memcpy_length hcopy
      simp only [intMax]
      refine ⟨hnonneg, by omega, by omega, by omega, fun k hk => ?_⟩
      rw [getElem?_memcpy hcopy (Or.inr (by omega))]
      rcases hframe k with heq | ⟨hik, _⟩
      · exact heq
      · omega
  · cases hcopy

theorem place_starts (he : e ≤ 1) (hsrc : cstr src = .ok c) (hb : BlockStarts b n w)
    (hplace : w.length < intMax) (hroom : w.length + 1 + c.length + e ≤ n) :
    ∃ b', place e src c w.length b = .ok b' ∧
      BlockStarts b' n (w ++ slash :: c ++ List.replicate e 0) := by
  have htake : src.take (c ++ List.replicate e 0).length = cells (c ++ List.replicate e 0) := by
    rcases Nat.le_one_iff_eq_zero_or_eq_one.1 he with rfl | rfl
    · rw [List.replicate_zero, List.append_nil]
      exact (cstr_take hsrc).1
    · rw [List.length_append, List.length_replicate]
      exact cstr_take_nul hsrc
  have hlen : (c ++ List.replicate e (0 : UInt8)).length = c.length + e := by
    rw [List.length_append, List.length_replicate]
  have hdst : toInt32 ((w.length : Int) + 1) = ((w ++ [slash]).length : Nat) := by
    rw [List.length_append, List.length_singleton]
    exact toInt32_of_lt (n := w.length + 1) (by simp only [intMax] at hplace; omega)
  obtain ⟨b₁, hstore, hb₁⟩ := hb.store (by omega) slash
  obtain ⟨b₂, hcopy, hb₂⟩ := hb₁.memcpy htake
    (by rw [hlen, List.length_append, List.length_singleton]; omega)
  refine ⟨b₂, ?_, by simpa using hb₂⟩
  rw [place, hstore, ok_bind, memcpyAt, hdst, if_pos (Int.natCast_nonneg _), Int.toNat_natCast,
    ← hlen]
  exact hcopy

/-- There is a place for a component if its block is long enough. -/
theorem place_ok (he : e ≤ 1) (hsrc : cstr src = .ok c) {i : Nat} (hi : i < intMax)
    (hroom : i + 1 + c.length + e ≤ b.length) : ∃ b', place e src c i b = .ok b' := by
  have hsrclen : c.length + e ≤ src.length := by
    have hlt := (cstr_take hsrc).2.1
    omega
  have hdst : toInt32 ((i : Int) + 1) = (i + 1 : Nat) :=
    toInt32_of_lt (n := i + 1) (by simp only [intMax] at hi; omega)
  rw [place, store, if_pos ⟨by omega, by omega⟩, ok_bind, memcpyAt, hdst, if_pos (by omega), memcpy,
    if_pos hsrclen, if_pos (by rw [List.length_set]; omega)]
  exact ⟨_, rfl⟩

/-- A component with a NUL behind it leaves one in the block. -/
theorem place_nul (hsrc : cstr src = .ok c) (h : place 1 src c j b = .ok b') : some 0 ∈ b' := by
  obtain ⟨b₁, _, hcopy⟩ := bind_eq_ok.1 h
  have hmem : some 0 ∈ src.take (c.length + 1) := by
    rw [cstr_take_nul hsrc]
    simp
  rw [memcpyAt] at hcopy
  split at hcopy
  · rw [memcpy] at hcopy
    split at hcopy
    · split at hcopy
      · cases hcopy
        exact List.mem_append_left _ (List.mem_append_right _ hmem)
      · cases hcopy
    · cases hcopy
  · cases hcopy

end Place

/-! ## All components -/

/-- The strings of `str` at the offsets `offs`, each placed behind the one before it. -/
def placeAll (e : Nat) (str : List (Option UInt8)) : (offs : List Nat) → (j : Int) →
    List (Option UInt8) → CRun (List (Option UInt8))
  | [], _, b => .ok b
  | p :: offs, j, b => do
    let c ← cstr (str.drop p)
    let b ← place e (str.drop p) c j b
    placeAll e str offs (toInt32 (j + 1 + c.length)) b

section PlaceAll

variable {e n : Nat} {str b b' : List (Option UInt8)} {offs : List Nat} {cs : List (List UInt8)}

/-- The first of the strings `c :: cs`. -/
theorem pointers_cons {c : List UInt8}
    (hstr : offs.map (fun p => cstr (str.drop p)) = (c :: cs).map .ok) :
    ∃ p offs', offs = p :: offs' ∧ cstr (str.drop p) = .ok c ∧
      offs'.map (fun p => cstr (str.drop p)) = cs.map .ok := by
  obtain ⟨p, offs', rfl, hp, hrest⟩ := List.map_eq_cons_iff.1 hstr
  exact ⟨p, offs', rfl, hp, hrest⟩

/-- When all components find a place. -/
theorem placeAll_ok_iff (he : e ≤ 1)
    (hstr : offs.map (fun p => cstr (str.drop p)) = cs.map .ok) (j : Nat) :
    (∃ b', placeAll e str offs (toInt32 j) b = .ok b') ↔ PlacedInside e b.length j cs := by
  induction cs generalizing offs j b with
  | nil =>
      rw [List.map_nil, List.map_eq_nil_iff] at hstr
      subst hstr
      exact ⟨fun _ => trivial, fun _ => ⟨b, rfl⟩⟩
  | cons c cs ih =>
      obtain ⟨p, offs, rfl, hc, hrest⟩ := pointers_cons hstr
      have hnext : toInt32 (toInt32 j + 1 + c.length) = toInt32 (j + 1 + c.length : Nat) := by
        rw [Int.add_assoc, toInt32_add]
        congr 1
        omega
      rw [placeAll, hc, ok_bind, PlacedInside, hnext]
      by_cases hin : j % 2 ^ 32 < intMax ∧ j % 2 ^ 32 + 1 + c.length + e ≤ b.length
      · have hint : toInt32 j = (j % 2 ^ 32 : Nat) :=
          toInt32_eq_mod (by have hlt := hin.1; simp only [intMax] at hlt; omega)
        obtain ⟨b₁, hplace⟩ := place_ok he hc hin.1 hin.2
        have hlen := (place_inv (by omega) hplace).2.2.2.1
        rw [hint, hplace, ok_bind, ih hrest, hlen, ← and_assoc, and_iff_right hin]
      · constructor
        · rintro ⟨b', h⟩
          obtain ⟨b₁, hplace, _⟩ := bind_eq_ok.1 h
          obtain ⟨hnonneg, hlt, hroom, _⟩ := place_inv (toInt32_le_intMax _) hplace
          have hint := toInt32_eq_mod ((toInt32_nonneg_iff j).1 hnonneg)
          exact absurd ⟨by omega, by omega⟩ hin
        · rintro ⟨hlt, hroom, _⟩
          exact absurd ⟨hlt, hroom⟩ hin

theorem placeAll_length {j : Int} (hj : j ≤ intMax)
    (hstr : offs.map (fun p => cstr (str.drop p)) = cs.map .ok)
    (h : placeAll e str offs j b = .ok b') : b'.length = b.length := by
  induction cs generalizing offs j b with
  | nil =>
      rw [List.map_nil, List.map_eq_nil_iff] at hstr
      subst hstr
      cases h
      rfl
  | cons c cs ih =>
      obtain ⟨p, offs, rfl, hc, hrest⟩ := pointers_cons hstr
      rw [placeAll, hc, ok_bind] at h
      obtain ⟨b₁, hplace, h⟩ := bind_eq_ok.1 h
      rw [ih (toInt32_le_intMax _) hrest h, (place_inv hj hplace).2.2.2.1]

theorem placeAll_nul {j : Int} (hstr : offs.map (fun p => cstr (str.drop p)) = cs.map .ok)
    (hne : cs ≠ []) (h : placeAll 1 str offs j b = .ok b') : some 0 ∈ b' := by
  induction cs generalizing offs j b with
  | nil => exact absurd rfl hne
  | cons c cs ih =>
      obtain ⟨p, offs, rfl, hc, hrest⟩ := pointers_cons hstr
      rw [placeAll, hc, ok_bind] at h
      obtain ⟨b₁, hplace, h⟩ := bind_eq_ok.1 h
      by_cases hcs : cs = []
      · subst hcs
        rw [List.map_nil, List.map_eq_nil_iff] at hrest
        subst hrest
        cases h
        exact place_nul hc hplace
      · exact ih hrest hcs h

/-- Behind the last place nothing is written. -/
theorem placeAll_frame {j : Int} (hj : j ≤ intMax)
    (hstr : offs.map (fun p => cstr (str.drop p)) = cs.map .ok)
    (h : placeAll e str offs j b = .ok b') {k : Nat} (hk : j + (slashJoin cs).length + e ≤ k) :
    b'[k]? = b[k]? := by
  induction cs generalizing offs j b with
  | nil =>
      rw [List.map_nil, List.map_eq_nil_iff] at hstr
      subst hstr
      cases h
      rfl
  | cons c cs ih =>
      obtain ⟨p, offs, rfl, hc, hrest⟩ := pointers_cons hstr
      rw [placeAll, hc, ok_bind] at h
      obtain ⟨b₁, hplace, h⟩ := bind_eq_ok.1 h
      obtain ⟨hnonneg, _, _, _, hframe⟩ := place_inv hj hplace
      have hnext := toInt32_le_of_nonneg (show 0 ≤ j + 1 + c.length by omega)
      rw [slashJoin_cons, List.length_cons, List.length_append] at hk
      rw [ih (toInt32_le_intMax _) hrest h (by omega), hframe k (by omega)]

/-- If the last component stands behind more than `2 ^ 31 - 2` bytes, then the end of the result is not
    written. -/
theorem placeAll_wraps (he : e ≤ 1) {j : Int} (hj : j ≤ intMax)
    (hstr : offs.map (fun p => cstr (str.drop p)) = cs.map .ok) (hne : cs ≠ [])
    (h : placeAll e str offs j b = .ok b')
    (hlong : (intMax : Int) ≤ j + (slashJoin cs.dropLast).length) {k : Nat}
    (hlast : j + (slashJoin cs.dropLast).length + e ≤ k) (hend : j + (slashJoin cs).length ≤ k + 2) :
    b'[k]? = b[k]? := by
  induction cs generalizing offs j b with
  | nil => exact absurd rfl hne
  | cons c cs ih =>
      obtain ⟨p, offs, rfl, hc, hrest⟩ := pointers_cons hstr
      rw [placeAll, hc, ok_bind] at h
      obtain ⟨b₁, hplace, h⟩ := bind_eq_ok.1 h
      obtain ⟨hnonneg, hlt, _, _, hframe⟩ := place_inv hj hplace
      by_cases hcs : cs = []
      · subst hcs
        rw [List.dropLast_singleton, slashJoin_nil, List.length_nil] at hlong
        omega
      · rw [List.dropLast_cons_of_ne_nil hcs, slashJoin_cons, List.length_cons,
          List.length_append] at hlong hlast
        rw [slashJoin_cons, List.length_cons, List.length_append] at hend
        rw [← hframe k (by omega)]
        obtain ⟨q, hq, _, hint⟩ := toInt32_spec (j + 1 + c.length)
        simp only [intMax] at hj hlt hlong
        by_cases hwrap : j + 1 + c.length < 2147483648
        · have hsame : toInt32 (j + 1 + c.length) = j + 1 + c.length := by omega
          rw [hsame] at h
          exact ih (by simp only [intMax]; omega) hrest hcs h (by simp only [intMax]; omega)
            (by omega) (by omega)
        · exact placeAll_frame (toInt32_le_intMax _) hrest h (by omega)

/-- Components that an `int` places are written one behind the other. -/
theorem placeAll_starts (he : e ≤ 1) {w : List UInt8}
    (hstr : offs.map (fun p => cstr (str.drop p)) = cs.map .ok) (hb : BlockStarts b n w)
    (hplaces : IntPlaces w.length cs) (hroom : w.length + (slashJoin cs).length + e ≤ n) :
    ∃ b', placeAll e str offs (toInt32 w.length) b = .ok b' ∧
      BlockStarts b' n (w ++ slashJoin cs) ∧
      (cs ≠ [] → BlockStarts b' n (w ++ slashJoin cs ++ List.replicate e 0)) := by
  induction cs generalizing offs b w with
  | nil =>
      rw [List.map_nil, List.map_eq_nil_iff] at hstr
      subst hstr
      exact ⟨b, rfl, by rwa [slashJoin_nil, List.append_nil], fun hne => absurd rfl hne⟩
  | cons c cs ih =>
      obtain ⟨p, offs, rfl, hc, hrest⟩ := pointers_cons hstr
      obtain ⟨hlt, hplaces⟩ := intPlaces_cons.1 hplaces
      rw [slashJoin_cons, List.length_cons, List.length_append] at hroom
      obtain ⟨b₁, hplace, hb₁⟩ := place_starts he hc hb hlt (by omega)
      have hlen : (w ++ slash :: c).length = w.length + 1 + c.length := by
        rw [List.length_append, List.length_cons]
        omega
      have hjoin : w ++ slash :: c ++ slashJoin cs = w ++ slashJoin (c :: cs) := by
        rw [slashJoin_cons, List.append_assoc, List.cons_append]
      have hint : toInt32 w.length = w.length :=
        toInt32_of_lt (by simp only [intMax] at hlt; omega)
      obtain ⟨b', hrun, hstarts, hbehind⟩ := ih hrest hb₁.left (by rwa [hlen]) (by rw [hlen]; omega)
      rw [hjoin] at hstarts hbehind
      refine ⟨b', ?_, hstarts, fun _ => ?_⟩
      · rw [placeAll, hc, ok_bind, hint, hplace, ok_bind, ← hrun, hlen]
        rfl
      · by_cases hcs : cs = []
        · subst hcs
          rw [List.map_nil, List.map_eq_nil_iff] at hrest
          subst hrest
          cases hrun
          rwa [slashJoin_cons, slashJoin_nil, List.append_nil]
        · exact hbehind hcs

/-- In a block that was written up to there, nothing stands behind them. -/
theorem placeAll_filled {w : List UInt8}
    (hstr : offs.map (fun p => cstr (str.drop p)) = cs.map .ok) (hplaces : IntPlaces w.length cs)
    (hroom : w.length + (slashJoin cs).length ≤ n) :
    placeAll 0 str offs (toInt32 w.length) (filled n w) = .ok (filled n (w ++ slashJoin cs)) := by
  obtain ⟨b', hrun, hstarts, _⟩ :=
    placeAll_starts (Nat.zero_le 1) hstr (filled_starts (show w.length ≤ n by omega)) hplaces hroom
  rw [hrun, hstarts.eq_filled fun k hk hkn => ?_]
  rw [List.length_append] at hk
  have hle := toInt32_le w.length
  rw [placeAll_frame (toInt32_le_intMax _) hstr hrun (by omega)]
  exact getElem?_filled (by omega) hkn

end PlaceAll

end Ryze
