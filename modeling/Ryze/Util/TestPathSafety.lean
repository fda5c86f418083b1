import Ryze.Util.NormalizeSafety
import Ryze.Util.TestSplit

set_option autoImplicit false

/-! # When the `normalize_path` of `test.c` stays inside its blocks

The result block has two bytes more than both arguments, one for the `/` between them and one for the
NUL. Each component is written behind a `/`, also the first one, so the components fit only if at
least one of them is left out. Of a result that an `int` does not place, each component has to be
inside the block where the wrapped `int` places it. -/

namespace Ryze

open CLib Cutting LexicalPath

namespace Test

/-! ## Splitting -/

/-- Where the last component starts. -/
def lastOffset : List (List UInt8) → Nat
  | [] => 0
  | [_] => 0
  | c :: cs => c.length + 1 + lastOffset cs

theorem lastOffset_cons (c : List UInt8) {cs : List (List UInt8)} (hne : cs ≠ []) :
    lastOffset (c :: cs) = c.length + 1 + lastOffset cs := by
  rw [lastOffset]
  exact hne

theorem length_le_nulJoin (cs : List (List UInt8)) : cs.length ≤ (nulJoin cs).length := by
  induction cs with
  | nil => exact Nat.le_refl _
  | cons c cs ih =>
      rw [nulJoin_cons, List.length_cons, List.length_append, List.length_cons]
      omega

theorem nulPieces_slash (cs : List (List UInt8)) : nulPieces [slash] cs = nulJoin cs := by
  induction cs with
  | nil => rfl
  | cons c cs ih =>
      by_cases hne : cs = []
      · subst hne
        rw [nulPieces, nulJoin_cons]
        rfl
      · rw [nulPieces_cons _ _ hne, ih, nulJoin_cons]
        simp

theorem lastStart_slash (cs : List (List UInt8)) : lastStart [slash] cs = lastOffset cs := by
  induction cs with
  | nil => rfl
  | cons c cs ih =>
      by_cases hne : cs = []
      · subst hne
        rfl
      · rw [lastStart_cons _ _ hne, ih, lastOffset_cons _ hne]
        rfl

theorem strSplit_components {cs : List (List UInt8)} (hne : cs ≠ [])
    (hcs : ∀ c ∈ cs, IsComponent c) :
    strSplit (cells ([slash].intercalate cs ++ [0])) [slash]
      = .ok (cells (nulJoin cs), lastOffset cs) := by
  have hsplit := strSplit_pieces (by simp) (pieces_intercalate hne fun c hc => (hcs c hc).1)
    (nul_not_mem_intercalate hne fun c hc => (hcs c hc).2)
  rwa [nulPieces_slash, lastStart_slash, cstrMem] at hsplit

/-! ## The loop over the components -/

/-- The longest stack that an `int` counts the cells of. -/
def depthMax : Nat := intMax - 1023

/-- The stack grows by 1024 cells at a time. -/
structure StackSized (stack : List (Option Nat)) : Prop where
  dvd : 1024 ∣ stack.length
  le : stack.length ≤ intMax

theorem StackSized.le_depthMax {stack : List (Option Nat)} (h : StackSized stack) :
    stack.length ≤ depthMax := by
  obtain ⟨⟨k, hk⟩, hle⟩ := h
  simp only [depthMax, intMax] at *
  omega

/-- Empty components and `.` are skipped, and `..` removes the last component that was kept. -/
def readName (kept : List (List UInt8)) (c : List UInt8) : Option (List (List UInt8)) :=
  if c = [] then some kept else resolveStep (bytes ".") (bytes "..") kept c

/-- The components that are not empty. -/
def names (cs : List (List UInt8)) : List (List UInt8) := cs.filter (fun c => c ≠ [])

/-- The components resolve to `kept'`, and the stack that is needed for it can be had. -/
def Walks (kept cs kept' : List (List UInt8)) : Prop :=
  resolve (bytes ".") (bytes "..") kept (names cs) = some kept' ∧
    Shallow (bytes ".") (bytes "..") depthMax kept (names cs)

theorem Walks.depth {kept cs kept' : List (List UInt8)} (h : Walks kept cs kept') :
    kept.length ≤ depthMax :=
  h.2 [] kept List.nil_prefix rfl

theorem walks_nil {kept : List (List UInt8)} (h : kept.length ≤ depthMax) : Walks kept [] kept := by
  refine ⟨rfl, fun u k hu hk => ?_⟩
  rw [List.prefix_nil.1 hu] at hk
  cases hk
  exact h

theorem walks_cons {kept cs kept' : List (List UInt8)} {c : List UInt8}
    (h : kept.length ≤ depthMax) :
    Walks kept (c :: cs) kept' ↔ ∃ k, readName kept c = some k ∧ Walks k cs kept' := by
  by_cases hc : c = []
  · have hnames : names (c :: cs) = names cs := by simp [names, hc]
    rw [Walks, hnames, readName, if_pos hc]
    constructor
    · intro hwalks
      exact ⟨kept, rfl, hwalks⟩
    · rintro ⟨k, hk, hwalks⟩
      cases hk
      exact hwalks
  · have hnames : names (c :: cs) = c :: names cs := by simp [names, hc]
    rw [Walks, hnames, readName, if_neg hc, resolve, shallow_cons]
    constructor
    · rintro ⟨hres, -, hshallow⟩
      obtain ⟨k, hk, hrest⟩ := Option.bind_eq_some_iff.1 hres
      exact ⟨k, hk, hrest, hshallow k hk⟩
    · rintro ⟨k, hk, hrest, hshallow⟩
      refine ⟨Option.bind_eq_some_iff.2 ⟨k, hk, hrest⟩, h, fun k' hk' => ?_⟩
      rw [hk] at hk'
      cases hk'
      exact hshallow

section Step

variable {str : List (Option UInt8)} {index : Int} {stack : List (Option Nat)}
  {kept : List (List UInt8)} {p : Nat} {c : List UInt8}

/-- A component is pushed, on a longer stack if need be, as long as there can be one. -/
theorem push_ok (hst : StackHolds str ⟨index, stack, 0⟩ kept) (hsized : StackSized stack)
    (hc : cstr (str.drop p) = .ok c) (hroom : kept.length + 1 ≤ depthMax) :
    ∃ stack', push stack index p = .ok stack' ∧ StackSized stack' ∧
      StackHolds str ⟨toInt32 (index + 1), stack', 0⟩ (kept ++ [c]) := by
  have hidx : index = kept.length := hst.index
  have hptr : ptrdiffMax = 2 ^ 63 - 1 := rfl
  by_cases hfull : (stack.length : Int) ≤ index
  · obtain ⟨⟨k, hk⟩, hle⟩ := hsized
    have hcap : kept.length ≤ stack.length := hst.length_le
    have hlt : stack.length + 1024 < 2 ^ 31 := by
      simp only [depthMax, intMax] at hroom
      omega
    have hgrown : realloc stack (toSize (toInt32 (stack.length + 1024)))
        = .ok (stack ++ List.replicate 1024 none) := by
      have hint : toInt32 (stack.length + 1024) = (stack.length + 1024 : Nat) :=
        toInt32_of_lt hlt
      rw [hint, toSize_of_nat (show stack.length + 1024 < 2 ^ 64 by omega), realloc,
        if_pos (by omega), List.take_of_length_le (by omega), Nat.add_sub_cancel_left]
    have hlonger : StackHolds str ⟨index, stack ++ List.replicate 1024 none, 0⟩ kept := by
      obtain ⟨offs, hoffs, htake, hstr⟩ := hst
      simp only at hoffs htake
      refine ⟨offs, hoffs, ?_, hstr⟩
      rw [List.take_append_of_le_length (by omega)]
      exact htake
    obtain ⟨stack', hstore, hlen', hholds⟩ := hlonger.push
      (by simp only [List.length_append, List.length_replicate]; omega)
      (by simp only [List.length_append, List.length_replicate, intMax]; omega) hc 0
    refine ⟨stack', ?_, ⟨?_, ?_⟩, hholds⟩
    · rw [push, if_pos hfull, hgrown, ok_bind]
      exact hstore
    · exact ⟨k + 1, by rw [hlen', List.length_append, List.length_replicate]; omega⟩
    · rw [hlen', List.length_append, List.length_replicate]
      simp only [intMax]
      omega
  · obtain ⟨stack', hstore, hlen', hholds⟩ := hst.push (by simp only; omega) hsized.le hc 0
    refine ⟨stack', ?_, ⟨by rw [hlen']; exact hsized.dvd, by rw [hlen']; exact hsized.le⟩, hholds⟩
    rw [push, if_neg hfull, pure_eq_ok, ok_bind]
    exact hstore

/-- A stack that would need more cells than an `int` counts is not to be had. -/
theorem push_error (hst : StackHolds str ⟨index, stack, 0⟩ kept) (hsized : StackSized stack)
    (hroom : depthMax < kept.length + 1) : push stack index p = .error .write := by
  have hidx : index = kept.length := hst.index
  have hle := hsized.le_depthMax
  have hptr : ptrdiffMax = 2 ^ 63 - 1 := rfl
  have hcap : kept.length ≤ stack.length := hst.length_le
  have hlen : stack.length = depthMax := by omega
  have hover : toSize (toInt32 (depthMax + 1024)) = 2 ^ 64 - 2 ^ 31 := by decide
  rw [push, if_pos (by omega), hlen, hover, realloc, if_neg (by omega)]
  rfl

/-- What one component does: it is read, or the stack is popped when it is empty or grows too long. -/
theorem walkStep_cases (hst : StackHolds str ⟨index, stack, 0⟩ kept) (hsized : StackSized stack)
    (hc : cstr (str.drop p) = .ok c) :
    (∃ k index' stack', readName kept c = some k ∧ k.length ≤ depthMax ∧
        walkStep c p index stack = .ok (index', stack') ∧ StackSized stack' ∧
        StackHolds str ⟨index', stack', 0⟩ k ∧ (c = bytes ".." → 0 < index)) ∨
      ((∀ k, readName kept c = some k → depthMax < k.length) ∧
        ((c = bytes ".." → 0 < index) → walkStep c p index stack = .error .write)) := by
  have hidx : index = kept.length := hst.index
  have hdepth : kept.length ≤ depthMax := Nat.le_trans hst.length_le hsized.le_depthMax
  by_cases hdd : c = bytes ".."
  · have hne : c ≠ [] := by
      rw [hdd]
      decide
    rw [readName, if_neg hne, resolveStep, if_pos hdd, walkStep,
      if_neg (not_not_intro hdd)]
    by_cases hkept : kept = []
    · refine Or.inr ⟨?_, fun hpop => ?_⟩
      · rw [if_pos hkept]
        rintro k hk
        cases hk
      · have hpos := hpop hdd
        rw [hidx, hkept] at hpos
        exact absurd hpos (by simp)
    · have hpos := List.length_pos_of_ne_nil hkept
      refine Or.inl ⟨kept.dropLast, toInt32 (index - 1), stack, if_neg hkept, ?_, rfl, hsized,
        hst.pop hsized.le hkept 0, fun _ => by omega⟩
      rw [List.length_dropLast]
      omega
  · rw [walkStep, if_pos hdd]
    by_cases hskip : c = [] ∨ c = bytes "."
    · have hread : readName kept c = some kept := by
        rw [readName]
        rcases hskip with hc | hc
        · rw [if_pos hc]
        · rw [if_neg (by rw [hc]; decide), resolveStep, if_neg hdd, if_pos hc]
      have hnot : ¬ (c ≠ [] ∧ c ≠ bytes ".") := by
        rintro ⟨hempty, hdot⟩
        rcases hskip with hc | hc
        · exact hempty hc
        · exact hdot hc
      rw [if_neg hnot]
      exact Or.inl ⟨kept, index, stack, hread, hdepth, rfl, hsized, hst, fun h => absurd h hdd⟩
    · obtain ⟨hempty, hdot⟩ := not_or.1 hskip
      have hread : readName kept c = some (kept ++ [c]) := by
        rw [readName, if_neg hempty, resolveStep, if_neg hdd, if_neg hdot]
      have hlen : (kept ++ [c]).length = kept.length + 1 := by
        rw [List.length_append, List.length_singleton]
      rw [if_pos ⟨hempty, hdot⟩]
      by_cases hroom : kept.length + 1 ≤ depthMax
      · obtain ⟨stack', hpush, hsized', hholds⟩ := push_ok hst hsized hc hroom
        refine Or.inl ⟨kept ++ [c], toInt32 (index + 1), stack', hread, by rw [hlen]; exact hroom, ?_,
          hsized', hholds, fun h => absurd h hdd⟩
        rw [hpush]
        rfl
      · refine Or.inr ⟨fun k hk => ?_, fun _ => ?_⟩
        · rw [hread] at hk
          cases hk
          omega
        · rw [push_error hst hsized (by omega)]
          rfl

end Step

/-- Where the loop stands on `..`, something is on the stack. -/
def PopsInside (str : List (Option UInt8)) (st : WalkState) : Prop :=
  cstr (str.drop st.p) = .ok (bytes "..") → 0 < st.index

section Walk

variable {str m : List (Option UInt8)} {cs kept : List (List UInt8)} {index : Int}
  {stack : List (Option Nat)} {p last n : Nat}

/-- What one round does where the components `c :: cs` are still to come: the component is read and
    the loop ends or goes on behind it, or the round does what it must not. -/
theorem walkRound_cases {c : List UInt8} (hcs : ∀ d ∈ c :: cs, 0 ∉ d)
    (hp : str.drop p = cells (nulJoin (c :: cs)) ++ m) (hlast : last = p + lastOffset (c :: cs))
    (hst : StackHolds str ⟨index, stack, 0⟩ kept) (hsized : StackSized stack) :
    (∃ k index' stack', readName kept c = some k ∧ k.length ≤ depthMax ∧
        PopsInside str ⟨p, index, stack⟩ ∧ StackSized stack' ∧
        StackHolds str ⟨index', stack', 0⟩ k ∧
        walkRound str last ⟨p, index, stack⟩ = .ok (if cs = [] then .inr ⟨p, index', stack'⟩
          else .inl ⟨p + c.length + 1, index', stack'⟩)) ∨
      ((∀ k, readName kept c = some k → depthMax < k.length) ∧
        (PopsInside str ⟨p, index, stack⟩ →
          walkRound str last ⟨p, index, stack⟩ = .error .write)) := by
  obtain ⟨hc, -⟩ := component_at (hcs c (List.mem_cons_self ..)) hp
  have hguard : PopsInside str ⟨p, index, stack⟩ ↔ (c = bytes ".." → 0 < index) := by
    rw [PopsInside, hc]
    exact ⟨fun h hdd => h (by rw [hdd]), fun h hdd => h (Except.ok.inj hdd)⟩
  have hends : p = last ↔ cs = [] := by
    by_cases hcs : cs = []
    · rw [hlast, hcs]
      exact ⟨fun _ => rfl, fun _ => rfl⟩
    · rw [hlast, lastOffset_cons c hcs]
      exact ⟨fun h => absurd h (by omega), fun h => absurd h hcs⟩
  rcases walkStep_cases hst hsized hc with
    ⟨k, index', stack', hread, hk, hstep, hsized', hst', hpop⟩ | ⟨hread, hstop⟩
  · refine Or.inl ⟨k, index', stack', hread, hk, hguard.2 hpop, hsized', hst', ?_⟩
    simp only [walkRound, hends]
    rw [hc, ok_bind, hstep, ok_bind]
    split
    · rfl
    · rfl
  · refine Or.inr ⟨hread, fun hpops => ?_⟩
    simp only [walkRound]
    rw [hc, ok_bind, hstop (hguard.1 hpops)]
    rfl

/-- The loop pops what is there and returns exactly if the components can be resolved. -/
theorem walk_iff (hne : cs ≠ []) (hcs : ∀ c ∈ cs, 0 ∉ c)
    (hp : str.drop p = cells (nulJoin cs) ++ m) (hlast : last = p + lastOffset cs)
    (hst : StackHolds str ⟨index, stack, 0⟩ kept) (hsized : StackSized stack)
    (hn : cs.length ≤ n) :
    ((∀ st, LoopReaches (walkRound str last) ⟨p, index, stack⟩ st → PopsInside str st) ∧
        ∃ st, cLoop (walkRound str last) n ⟨p, index, stack⟩ = .ok st) ↔
      ∃ kept', Walks kept cs kept' := by
  induction cs generalizing kept index stack p n with
  | nil => exact absurd rfl hne
  | cons c cs ih =>
      have hdepth : kept.length ≤ depthMax := Nat.le_trans hst.length_le hsized.le_depthMax
      obtain ⟨n, rfl⟩ : ∃ k, n = k + 1 := by
        rw [List.length_cons] at hn
        exact ⟨n - 1, by omega⟩
      rw [List.length_cons] at hn
      simp only [walks_cons hdepth]
      rcases walkRound_cases hcs hp hlast hst hsized with
        ⟨k, index', stack', hread, hk, hpops, hsized', hst', hround⟩ | ⟨hread, hstop⟩
      · by_cases hend : cs = []
        · subst hend
          rw [if_pos rfl] at hround
          constructor
          · intro _
            exact ⟨k, k, hread, walks_nil hk⟩
          · intro _
            refine ⟨?_, _, cLoop_exit hround n⟩
            rw [forall_reaches_last (by rw [hround]; simp)]
            exact hpops
        · rw [if_neg hend] at hround
          rw [lastOffset_cons c hend] at hlast
          rw [forall_reaches_next hround, cLoop_next hround, and_assoc, and_iff_right hpops,
            ih hend (fun d hd => hcs d (List.mem_cons_of_mem _ hd))
              (component_at (hcs c (List.mem_cons_self ..)) hp).2 (by omega) hst' hsized' (by omega)]
          constructor
          · rintro ⟨kept', hwalks⟩
            exact ⟨kept', k, hread, hwalks⟩
          · rintro ⟨kept', k', hread', hwalks⟩
            rw [hread] at hread'
            cases hread'
            exact ⟨kept', hwalks⟩
      · constructor
        · rintro ⟨hpops, st, hloop⟩
          have hround := hstop (hpops _ .start)
          obtain ⟨_, _, hexit | ⟨_, hgo, _⟩⟩ := cLoop_ok_cases hloop
          · rw [hround] at hexit
            cases hexit
          · rw [hround] at hgo
            cases hgo
        · rintro ⟨kept', k, hread', hwalks⟩
          have hlt := hread k hread'
          have hle := hwalks.depth
          omega

/-- What is on the stack in the end. -/
theorem walk_holds {kept' : List (List UInt8)} (hne : cs ≠ []) (hcs : ∀ c ∈ cs, 0 ∉ c)
    (hp : str.drop p = cells (nulJoin cs) ++ m) (hlast : last = p + lastOffset cs)
    (hst : StackHolds str ⟨index, stack, 0⟩ kept) (hsized : StackSized stack)
    (hn : cs.length ≤ n) (hwalks : Walks kept cs kept') :
    ∃ st, cLoop (walkRound str last) n ⟨p, index, stack⟩ = .ok st ∧
      StackHolds str ⟨st.index, st.stack, 0⟩ kept' := by
  induction cs generalizing kept index stack p n with
  | nil => exact absurd rfl hne
  | cons c cs ih =>
      obtain ⟨n, rfl⟩ : ∃ k, n = k + 1 := by
        rw [List.length_cons] at hn
        exact ⟨n - 1, by omega⟩
      rw [List.length_cons] at hn
      obtain ⟨k, hread, hrest⟩ := (walks_cons hwalks.depth).1 hwalks
      rcases walkRound_cases hcs hp hlast hst hsized with
        ⟨k', index', stack', hread', _, _, hsized', hst', hround⟩ | ⟨hlong, _⟩
      · rw [hread] at hread'
        cases hread'
        by_cases hend : cs = []
        · subst hend
          rw [if_pos rfl] at hround
          cases hrest.1
          exact ⟨_, cLoop_exit hround n, hst'⟩
        · rw [if_neg hend] at hround
          rw [lastOffset_cons c hend] at hlast
          rw [cLoop_next hround]
          exact ih hend (fun d hd => hcs d (List.mem_cons_of_mem _ hd))
            (component_at (hcs c (List.mem_cons_self ..)) hp).2 (by omega) hst' hsized' (by omega)
            hrest
      · have hlt := hlong k hread
        have hle := hrest.depth
        omega

end Walk

/-! ## Writing the result -/

/-- The loop places the strings that the pointers on the stack point to, each with a NUL behind it. -/
theorem resultLoop_eq {str : List (Option UInt8)} {stack : List (Option Nat)} {offs : List Nat}
    {kept : List (List UInt8)} {i : Nat} (hstack : (stack.drop i).take offs.length = cells offs)
    (hstr : offs.map (fun p => cstr (str.drop p)) = kept.map .ok) (j : Int)
    (b : List (Option UInt8)) :
    resultLoop str stack offs.length i j b = placeAll 1 str offs j b := by
  induction offs generalizing kept i j b with
  | nil => rfl
  | cons p offs ih =>
      cases kept with
      | nil => cases hstr
      | cons c kept =>
          obtain ⟨hc, hrest⟩ := List.cons.inj hstr
          obtain ⟨hhead, htail⟩ := stack_next hstack
          simp only [List.length_cons, resultLoop, hhead, ok_bind, placeAll, place, strcpyAt, hc,
            bind_assoc, toInt32_add, toInt32_add_right, ih htail hrest]

/-! ## Room for the result -/

/-- A component that is kept when it is read and removes nothing. -/
def IsPlain (c : List UInt8) : Prop := c ≠ [] ∧ c ≠ bytes "." ∧ c ≠ bytes ".."

instance (c : List UInt8) : Decidable (IsPlain c) := inferInstanceAs (Decidable (_ ∧ _ ∧ _))

theorem pushed_names (cs : List (List UInt8)) :
    pushed (bytes ".") (bytes "..") (names cs) = cs.filter (fun c => IsPlain c) := by
  induction cs with
  | nil => rfl
  | cons c cs ih =>
      rw [names] at ih
      rw [names, List.filter_cons, List.filter_cons]
      by_cases hempty : c = []
      · rw [if_neg (by simp [hempty]), if_neg (by simp [hempty, IsPlain]), ih]
      · rw [if_pos (by simp [hempty]), pushed, ih]
        by_cases hdd : c = bytes ".."
        · rw [if_pos hdd, if_neg (by simp [hdd, IsPlain])]
        · by_cases hd : c = bytes "."
          · rw [if_neg hdd, if_pos hd, if_neg (by simp [hd, IsPlain])]
          · rw [if_neg hdd, if_neg hd, if_pos (by simp [hempty, hdd, hd, IsPlain])]

/-- What is kept is shorter than all components together unless all of them are kept. -/
theorem kept_lt_iff {cs kept : List (List UInt8)}
    (hres : resolve (bytes ".") (bytes "..") [] (names cs) = some kept) :
    weight (fun c => c.length + 1) kept < weight (fun c => c.length + 1) cs ↔
      ¬ ∀ c ∈ cs, IsPlain c := by
  constructor
  · intro hlt hplain
    have hnames : names cs = cs :=
      List.filter_eq_self.2 (fun c hc => decide_eq_true (hplain c hc).1)
    rw [hnames, resolve_plain (fun c hc => (hplain c hc).2)] at hres
    cases hres
    exact absurd hlt (Nat.lt_irrefl _)
  · intro hnot
    obtain ⟨c, hc⟩ := not_forall.1 hnot
    obtain ⟨hmem, hplain⟩ := Classical.not_imp.1 hc
    have hlt := weight_filter_lt (w := fun c => c.length + 1) (p := fun c => IsPlain c) hmem
      (decide_eq_false hplain) (Nat.succ_pos _)
    have hbalance := pushed_balance (fun c => c.length + 1) hres
    rw [pushed_names, weight_nil] at hbalance
    omega

/-! ## The whole function -/

theorem stackHolds_empty {str : List (Option UInt8)} :
    StackHolds str ⟨0, List.replicate 1024 none, 0⟩ [] := ⟨[], rfl, rfl, rfl⟩

theorem stackSized_empty : StackSized (List.replicate 1024 none) := by
  refine ⟨⟨1, ?_⟩, ?_⟩
  · rw [List.length_replicate]
  · rw [List.length_replicate]
    decide

/-- `normalize_path` of `test.c`: every access is inside its block and the result has its NUL, and
    nothing is popped from an empty stack. The lengths are sums only, and do not wrap. -/
def NormalizeSafe (basedir path : List UInt8) : Prop :=
  (∃ result, normalizePath basedir path = .ok result ∧ some 0 ∈ result) ∧
    ∃ block str last stack,
      fullPath basedir path = .ok block ∧ strSplit block [slash] = .ok (str, last) ∧
      malloc 1024 = .ok stack ∧
      ∀ s, LoopReaches (walkRound str last) ⟨0, 0, stack⟩ s → PopsInside str s

/-- The components of the joined path. -/
def pathComponents (basedir path : List UInt8) : List (List UInt8) :=
  (basedir ++ slash :: path).splitOn slash

/-- The inputs on which `normalize_path` stays inside its blocks. Every `..` has something to pop, the
    stack is never longer than an `int` counts, and something is left in the end; and at least one
    component is empty, `.` or `..`. If an `int` does not place the components that are left, each of
    them has to be inside the block where it is placed. -/
def StaysInside (basedir path : List UInt8) : Prop :=
  ∃ kept, Walks [] (pathComponents basedir path) kept ∧ kept ≠ [] ∧
    (IntPlaces 0 kept → ¬ ∀ c ∈ pathComponents basedir path, IsPlain c) ∧
    (¬ IntPlaces 0 kept → PlacedInside 1 (basedir.length + path.length + 2) 0 kept)

theorem drop_zero_append (m : List (Option UInt8)) : m.drop 0 = m ++ [] := by
  rw [List.drop_zero, List.append_nil]

section Whole

variable {basedir path : List UInt8}

/-- The size of `full_path` and of the result. -/
theorem resultSize (hbound : basedir.length + path.length + 2 ≤ ptrdiffMax) :
    sizeAdd (sizeAdd basedir.length path.length) 2 = basedir.length + path.length + 2 := by
  have hptr : ptrdiffMax = 2 ^ 63 - 1 := rfl
  have hmod : sizeMod = 2 ^ 64 := rfl
  rw [sizeAdd_of_lt (show basedir.length + path.length < sizeMod by omega),
    sizeAdd_of_lt (by omega)]

theorem fullPath_eq (hbase : 0 ∉ basedir) (hpath : 0 ∉ path)
    (hbound : basedir.length + path.length + 2 ≤ ptrdiffMax) :
    fullPath basedir path = .ok (cells (basedir ++ slash :: path ++ [0])) := by
  have hptr : ptrdiffMax = 2 ^ 63 - 1 := rfl
  have hmod : sizeMod = 2 ^ 64 := rfl
  have hdst : sizeAdd basedir.length 1 = (basedir ++ [slash]).length := by
    rw [sizeAdd_of_lt (by omega), List.length_append, List.length_singleton]
  obtain ⟨hmalloc, hb⟩ := malloc_starts (α := UInt8) hbound
  obtain ⟨b₁, hcopy, hb₁⟩ := hb.strcpy (cstr_cstrMem hbase) (by rw [List.length_nil]; omega)
  rw [List.nil_append] at hb₁
  obtain ⟨b₂, hslash, hb₂⟩ := hb₁.left.store (by omega) slash
  obtain ⟨b₃, hcopy', hb₃⟩ := hb₂.strcpy (cstr_cstrMem hpath)
    (by rw [List.length_append, List.length_singleton]; omega)
  have hfull : b₃ = cells (basedir ++ [slash] ++ path ++ [0]) := by
    refine hb₃.full ?_
    simp only [List.length_append, List.length_singleton]
    omega
  simp only [fullPath, resultSize hbound, hdst]
  rw [hmalloc, ok_bind]
  rw [List.length_nil] at hcopy
  rw [hcopy, ok_bind, hslash, ok_bind, hcopy', hfull, List.append_assoc basedir]
  rfl

theorem pathComponents_ne : pathComponents basedir path ≠ [] := List.splitOn_ne_nil _ _

theorem pathComponents_component (hbase : 0 ∉ basedir) (hpath : 0 ∉ path) :
    ∀ c ∈ pathComponents basedir path, IsComponent c :=
  fun _ hc => splitOn_component (nul_not_mem_joined hbase hpath) hc

theorem weight_pathComponents : weight (fun c => c.length + 1) (pathComponents basedir path)
    = basedir.length + path.length + 2 := by
  rw [← slashJoin_length, slashJoin_eq pathComponents_ne, pathComponents, List.intercalate_splitOn,
    List.length_cons, List.length_append, List.length_cons]
  omega

theorem pathComponents_fuel : (pathComponents basedir path).length
    ≤ (cells (nulJoin (pathComponents basedir path))).length := by
  rw [cells_length]
  exact length_le_nulJoin _

theorem strSplit_fullPath (hbase : 0 ∉ basedir) (hpath : 0 ∉ path) :
    strSplit (cells (basedir ++ slash :: path ++ [0])) [slash]
      = .ok (cells (nulJoin (pathComponents basedir path)),
          lastOffset (pathComponents basedir path)) := by
  have hsplit := strSplit_components pathComponents_ne (pathComponents_component hbase hpath)
  rwa [pathComponents, List.intercalate_splitOn] at hsplit

/-- The loop over the components of the joined path, from the empty stack. -/
theorem walk_whole_iff (hbase : 0 ∉ basedir) (hpath : 0 ∉ path) :
    ((∀ st, LoopReaches (walkRound (cells (nulJoin (pathComponents basedir path)))
          (lastOffset (pathComponents basedir path))) ⟨0, 0, List.replicate 1024 none⟩ st →
        PopsInside (cells (nulJoin (pathComponents basedir path))) st) ∧
      ∃ st, cLoop (walkRound (cells (nulJoin (pathComponents basedir path)))
          (lastOffset (pathComponents basedir path)))
          (cells (nulJoin (pathComponents basedir path))).length ⟨0, 0, List.replicate 1024 none⟩
        = .ok st) ↔ ∃ kept, Walks [] (pathComponents basedir path) kept :=
  walk_iff pathComponents_ne (fun c hc => (pathComponents_component hbase hpath c hc).2)
    (drop_zero_append _) (Nat.zero_add _).symm stackHolds_empty stackSized_empty pathComponents_fuel

theorem walk_whole (hbase : 0 ∉ basedir) (hpath : 0 ∉ path) {kept : List (List UInt8)}
    (hwalks : Walks [] (pathComponents basedir path) kept) :
    ∃ st, cLoop (walkRound (cells (nulJoin (pathComponents basedir path)))
        (lastOffset (pathComponents basedir path)))
        (cells (nulJoin (pathComponents basedir path))).length ⟨0, 0, List.replicate 1024 none⟩
      = .ok st ∧
      StackHolds (cells (nulJoin (pathComponents basedir path))) ⟨st.index, st.stack, 0⟩ kept :=
  walk_holds pathComponents_ne (fun c hc => (pathComponents_component hbase hpath c hc).2)
    (drop_zero_append _) (Nat.zero_add _).symm stackHolds_empty stackSized_empty pathComponents_fuel
    hwalks

/-- The function from the loop over the components on. -/
theorem normalizePath_run (hbase : 0 ∉ basedir) (hpath : 0 ∉ path)
    (hbound : basedir.length + path.length + 2 ≤ ptrdiffMax) :
    normalizePath basedir path = (do
      let st ← cLoop (walkRound (cells (nulJoin (pathComponents basedir path)))
        (lastOffset (pathComponents basedir path)))
        (cells (nulJoin (pathComponents basedir path))).length ⟨0, 0, List.replicate 1024 none⟩
      resultLoop (cells (nulJoin (pathComponents basedir path))) st.stack st.index.toNat 0 0
        (List.replicate (basedir.length + path.length + 2) none)) := by
  obtain ⟨hmalloc, _⟩ := malloc_starts (α := UInt8) hbound
  obtain ⟨hstack, _⟩ := malloc_starts (α := Nat) (show 1024 ≤ ptrdiffMax by decide)
  simp only [normalizePath, resultSize hbound]
  rw [fullPath_eq hbase hpath hbound, ok_bind, strSplit_fullPath hbase hpath, ok_bind, hstack,
    ok_bind]
  simp only [hmalloc, ok_bind]

/-- What is written, from a stack that holds `kept`. -/
theorem normalizePath_places (hbase : 0 ∉ basedir) (hpath : 0 ∉ path)
    (hbound : basedir.length + path.length + 2 ≤ ptrdiffMax) {kept : List (List UInt8)}
    (hwalks : Walks [] (pathComponents basedir path) kept) :
    ∃ offs, offs.map (fun p => cstr ((cells (nulJoin (pathComponents basedir path))).drop p))
        = kept.map .ok ∧
      normalizePath basedir path
        = placeAll 1 (cells (nulJoin (pathComponents basedir path))) offs (toInt32 (0 : Nat))
          (List.replicate (basedir.length + path.length + 2) none) := by
  obtain ⟨st, hloop, offs, hindex, hoffs, hstr⟩ := walk_whole hbase hpath hwalks
  simp only at hindex hoffs
  refine ⟨offs, hstr, ?_⟩
  rw [normalizePath_run hbase hpath hbound, hloop, ok_bind, hindex, Int.toNat_natCast,
    resultLoop_eq (by rw [List.drop_zero]; exact hoffs) hstr]
  rfl

/-- The result is written exactly if something is left and each component is inside the block where it
    is placed. -/
theorem normalizePath_ok_iff (hbase : 0 ∉ basedir) (hpath : 0 ∉ path)
    (hbound : basedir.length + path.length + 2 ≤ ptrdiffMax) {kept : List (List UInt8)}
    (hwalks : Walks [] (pathComponents basedir path) kept) :
    (∃ result, normalizePath basedir path = .ok result ∧ some 0 ∈ result) ↔
      kept ≠ [] ∧ PlacedInside 1 (basedir.length + path.length + 2) 0 kept := by
  obtain ⟨offs, hstr, hrun⟩ := normalizePath_places hbase hpath hbound hwalks
  have hiff := placeAll_ok_iff (Nat.le_refl 1) hstr 0
    (b := List.replicate (basedir.length + path.length + 2) none)
  rw [List.length_replicate] at hiff
  rw [hrun, ← hiff]
  constructor
  · rintro ⟨result, hresult, hmem⟩
    refine ⟨?_, result, hresult⟩
    rintro rfl
    rw [List.map_nil, List.map_eq_nil_iff] at hstr
    subst hstr
    cases hresult
    exact absurd (List.eq_of_mem_replicate hmem) (by simp)
  · rintro ⟨hkept, result, hresult⟩
    exact ⟨result, hresult, placeAll_nul hstr hkept hresult⟩

/-- Where an `int` places what is left, it is inside the block unless all components are left. -/
theorem fits_iff {kept : List (List UInt8)}
    (hwalks : Walks [] (pathComponents basedir path) kept) (hkept : kept ≠ [])
    (hplaces : IntPlaces 0 kept) :
    PlacedInside 1 (basedir.length + path.length + 2) 0 kept ↔
      ¬ ∀ c ∈ pathComponents basedir path, IsPlain c := by
  rw [placedInside_iff hplaces, or_iff_right hkept, ← kept_lt_iff hwalks.1, weight_pathComponents,
    slashJoin_length]
  omega

theorem normalizePath_safe_iff (hbase : 0 ∉ basedir) (hpath : 0 ∉ path)
    (hbound : basedir.length + path.length + 2 ≤ ptrdiffMax) :
    NormalizeSafe basedir path ↔ StaysInside basedir path := by
  obtain ⟨hstack, _⟩ := malloc_starts (α := Nat) (show 1024 ≤ ptrdiffMax by decide)
  have hiff := walk_whole_iff hbase hpath
  constructor
  · rintro ⟨hrun, block, str, last, stack, hfull, hsplit, hmalloc, hpops⟩
    rw [fullPath_eq hbase hpath hbound] at hfull
    cases hfull
    rw [strSplit_fullPath hbase hpath] at hsplit
    cases hsplit
    rw [hstack] at hmalloc
    cases hmalloc
    obtain ⟨kept, hwalks⟩ := hiff.1 ⟨hpops, by
      obtain ⟨result, hresult, -⟩ := hrun
      rw [normalizePath_run hbase hpath hbound] at hresult
      obtain ⟨st, hloop, -⟩ := bind_eq_ok.1 hresult
      exact ⟨st, hloop⟩⟩
    obtain ⟨hkept, hin⟩ := (normalizePath_ok_iff hbase hpath hbound hwalks).1 hrun
    exact ⟨kept, hwalks, hkept, fun hplaces => (fits_iff hwalks hkept hplaces).1 hin, fun _ => hin⟩
  · rintro ⟨kept, hwalks, hkept, hplain, hplaced⟩
    obtain ⟨hpops, _⟩ := hiff.2 ⟨kept, hwalks⟩
    refine ⟨(normalizePath_ok_iff hbase hpath hbound hwalks).2 ⟨hkept, ?_⟩, _, _, _, _,
      fullPath_eq hbase hpath hbound, strSplit_fullPath hbase hpath, hstack, hpops⟩
    by_cases hplaces : IntPlaces 0 kept
    · exact (fits_iff hwalks hkept hplaces).2 (hplain hplaces)
    · exact hplaced hplaces

end Whole

end Test

/-- **When the two normalisers stay inside their blocks.** The one of `util.c` does so for a relative
    path if and only if its condition on the components in front of the `..`s holds, the one of
    `test.c` if and only if at least one component is not written and at least one is. -/
theorem normalizers_safe_iff (path basedir : List UInt8) (hpath : 0 ∉ path) (hbase : 0 ∉ basedir)
    (hbound : basedir.length + path.length + 2 ≤ ptrdiffMax) :
    (isAbsolutePath path = .ok false → (NormalizeSafe path basedir ↔ StaysInside path basedir)) ∧
      (Test.NormalizeSafe basedir path ↔ Test.StaysInside basedir path) :=
  ⟨fun hrel => normalizePath_safe_iff hpath hbase hrel hbound,
    Test.normalizePath_safe_iff hbase hpath hbound⟩

/-- `../c` below `/a/b`. -/
theorem normalizers_safe_dotdot :
    NormalizeSafe (bytes "../c") (bytes "/a/b") ∧
      Test.NormalizeSafe (bytes "/a/b") (bytes "../c") := by
  obtain ⟨hutil, htest⟩ := normalizers_safe_iff (bytes "../c") (bytes "/a/b") (by decide) (by decide)
    (by decide)
  constructor
  · exact (hutil (by decide)).2 ⟨by decide, [bytes "a", bytes "c"], by decide, by decide,
      fun _ => by decide, fun hplaces => absurd (by decide) hplaces⟩
  · exact htest.2 ⟨[bytes "a", bytes "c"], ⟨by decide, shallow_of_length (by decide)⟩, by decide,
      fun _ => by decide, fun hplaces => absurd (by decide) hplaces⟩

/-- `../../..` below `/q/a/b/c` overflows the result block of `util.c`, and `b` below `a` the one of
    `test.c`. -/
theorem normalizers_overflow :
    (¬ ∀ path basedir : List UInt8, 0 ∉ path → 0 ∉ basedir → isAbsolutePath path = .ok false →
      basedir.length + path.length + 2 ≤ ptrdiffMax → NormalizeSafe path basedir) ∧
    ¬ ∀ path basedir : List UInt8, 0 ∉ path → 0 ∉ basedir → isAbsolutePath path = .ok false →
      basedir.length + path.length + 2 ≤ ptrdiffMax → Test.NormalizeSafe basedir path := by
  constructor
  · intro h
    have hrun : normalizePath (bytes "../../..") (bytes "/q/a/b/c") = .error .write := by
      decide +kernel
    obtain ⟨⟨result, hresult, _⟩, _⟩ := h (bytes "../../..") (bytes "/q/a/b/c") (by decide)
      (by decide) (by decide) (by decide)
    rw [hrun] at hresult
    cases hresult
  · intro h
    have hrun : Test.normalizePath (bytes "a") (bytes "b") = .error .write := by
      decide +kernel
    obtain ⟨⟨result, hresult, _⟩, _⟩ := h (bytes "b") (bytes "a") (by decide) (by decide)
      (by decide) (by decide)
    rw [hrun] at hresult
    cases hresult

end Ryze
