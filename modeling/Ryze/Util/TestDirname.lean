import Ryze.Util.FileDirname

set_option autoImplicit false

/-! # `dirname` of `test.c`

The loop looks for the last `/` with another byte than `/` behind it. It counts a `long` down, so it
ends at the front of the string, and it passes over all `/` at the end, where `dirname` of `util.c`
passes over one. -/

namespace Ryze

open CLib

namespace Test

/-- `for(long int i = len - 1; i >= 0; i--)`, with `left` bytes still to look at; the result is
    `index`. -/
def dirnameLoop (str : List UInt8) : (left : Nat) → CRun Int
  | 0 => return -1
  | i + 1 => do
    let c ← loadCell (cstrMem str) i
    if c = slash then
      if i = str.length - 1 then dirnameLoop str i
      else do
        let d ← loadCell (cstrMem str) (i + 1)
        if d = slash then dirnameLoop str i else return i
    else dirnameLoop str i

/-- `dirname(str)`. -/
def dirname (str : List UInt8) : CRun (List (Option UInt8)) := do
  let index ← dirnameLoop str str.length
  if index ≤ 0 then do
    let r ← malloc 2
    memcpy r 0 (cstrMem (if index = -1 then bytes "." else bytes "/")) 2
  else copyPrefix str index.toNat

/-- What stands before the last component, without the `/` behind it: `.` for a component alone and
    `/` for one at the root. -/
def parentDir (str : List UInt8) : List UInt8 :=
  let front := (str.rdropWhile (· = slash)).rdropWhile (· ≠ slash)
  if front = [] then bytes "."
  else if front = [slash] then [slash]
  else front.dropLast

/-! ## The loop -/

theorem loadCell_cstrMem {str : List UInt8} {i : Nat} {c : UInt8} (h : str[i]? = some c) :
    loadCell (cstrMem str) i = .ok c := by
  have hget : (str ++ [0])[i]? = some c := by
    rw [List.getElem?_append_left (List.getElem?_eq_some_iff.1 h).1, h]
  rw [cstrMem, loadCell, cells, List.getElem?_map, hget]
  rfl

/-- The `/` that the loop stops at. -/
def Splits (str : List UInt8) (i : Nat) : Prop :=
  str[i]? = some slash ∧ ∃ d, str[i + 1]? = some d ∧ d ≠ slash

theorem dirnameLoop_stop {str : List UInt8} {i : Nat} (h : Splits str i) :
    dirnameLoop str (i + 1) = .ok i := by
  obtain ⟨hi, d, hd, hne⟩ := h
  have hlt := (List.getElem?_eq_some_iff.1 hd).1
  rw [dirnameLoop, loadCell_cstrMem hi, ok_bind, if_pos rfl, if_neg (by omega),
    loadCell_cstrMem hd, ok_bind, if_neg hne]
  rfl

theorem dirnameLoop_pass {str : List UInt8} {i : Nat} (hi : i < str.length)
    (h : ¬ Splits str i) : dirnameLoop str (i + 1) = dirnameLoop str i := by
  obtain ⟨c, hc⟩ : ∃ c, str[i]? = some c := ⟨_, List.getElem?_eq_getElem hi⟩
  rw [dirnameLoop, loadCell_cstrMem hc, ok_bind]
  by_cases hslash : c = slash
  · subst hslash
    rw [if_pos rfl]
    by_cases hend : i = str.length - 1
    · rw [if_pos hend]
    · obtain ⟨d, hd⟩ : ∃ d, str[i + 1]? = some d :=
        ⟨_, List.getElem?_eq_getElem (by omega)⟩
      have hd' : d = slash := by
        by_contra hne
        exact h ⟨hc, d, hd, hne⟩
      rw [if_neg hend, loadCell_cstrMem hd, ok_bind, if_pos hd']
  · rw [if_neg hslash]

/-- The loop goes down over bytes it does not stop at. -/
theorem dirnameLoop_down {str : List UInt8} {k n : Nat} (hle : k ≤ n) (hn : n ≤ str.length)
    (h : ∀ i, k ≤ i → i < n → ¬ Splits str i) : dirnameLoop str n = dirnameLoop str k := by
  induction n, hle using Nat.le_induction with
  | base => rfl
  | succ n hk ih =>
      rw [dirnameLoop_pass (by omega) (h n hk (by omega))]
      exact ih (by omega) fun i hi hin => h i hi (by omega)

/-! ## Components and what is behind them -/

/-- A string is a component with slashes behind it, where either may be missing, or it has a `/` in
    front of its last component. -/
theorem slash_cases (str : List UInt8) :
    (∃ name n, slash ∉ name ∧ str = name ++ List.replicate n slash) ∨
    ∃ pre name n, name ≠ [] ∧ slash ∉ name ∧
      str = pre ++ slash :: (name ++ List.replicate n slash) := by
  induction str with
  | nil => exact Or.inl ⟨[], 0, List.not_mem_nil, rfl⟩
  | cons c str ih =>
      rcases ih with ⟨name, n, hname, rfl⟩ | ⟨pre, name, n, hne, hname, rfl⟩
      · by_cases hc : c = slash
        · subst hc
          by_cases hne : name = []
          · subst hne
            exact Or.inl ⟨[], n + 1, hname, rfl⟩
          · exact Or.inr ⟨[], name, n, hne, hname, rfl⟩
        · refine Or.inl ⟨c :: name, n, ?_, rfl⟩
          rw [List.mem_cons, not_or]
          exact ⟨Ne.symm hc, hname⟩
      · exact Or.inr ⟨c :: pre, name, n, hne, hname, rfl⟩

/-- No `/` of the last component or behind it stops the loop. -/
theorem not_splits_of_le {pre name : List UInt8} {n i : Nat} (hname : slash ∉ name)
    (hi : pre.length ≤ i) : ¬ Splits (pre ++ (name ++ List.replicate n slash)) i := by
  rintro ⟨hc, d, hd, hne⟩
  rw [List.getElem?_append_right hi] at hc
  rw [List.getElem?_append_right (by omega)] at hd
  by_cases hlt : i - pre.length < name.length
  · rw [List.getElem?_append_left hlt] at hc
    exact hname (List.mem_of_getElem? hc)
  · rw [List.getElem?_append_right (by omega)] at hd
    exact hne (List.eq_of_mem_replicate (List.mem_of_getElem? hd))

theorem rdropWhile_slashes {l : List UInt8} (n : Nat) :
    (l ++ List.replicate n slash).rdropWhile (· = slash) = l.rdropWhile (· = slash) := by
  induction n with
  | zero => rw [List.replicate_zero, List.append_nil]
  | succ n ih =>
      rw [List.replicate_succ', ← List.append_assoc, List.rdropWhile_concat_pos _ _ _ (by simp)]
      exact ih

theorem rdropWhile_name {pre name : List UInt8} (hne : name ≠ []) (hname : slash ∉ name) :
    (pre ++ name).rdropWhile (· = slash) = pre ++ name := by
  rw [List.rdropWhile_eq_self_iff]
  intro hl hlast
  rw [List.getLast_append_of_ne_nil hl hne, decide_eq_true_eq] at hlast
  exact hname (hlast ▸ List.getLast_mem hne)

/-- A component at most, with slashes behind it. -/
theorem parentDir_name {name : List UInt8} (hname : slash ∉ name) (n : Nat) :
    parentDir (name ++ List.replicate n slash) = bytes "." := by
  have hfront : ((name ++ List.replicate n slash).rdropWhile (· = slash)).rdropWhile
      (· ≠ slash) = [] := by
    rw [rdropWhile_slashes, List.rdropWhile_eq_nil_iff]
    intro c hc
    have hmem : c ∈ name := (List.rdropWhile_prefix _ _).subset hc
    rw [decide_eq_true_eq]
    rintro rfl
    exact hname hmem
  simp only [parentDir, hfront, if_true]

theorem parentDir_component {pre name : List UInt8} (hne : name ≠ []) (hname : slash ∉ name)
    (n : Nat) : parentDir (pre ++ slash :: (name ++ List.replicate n slash)) =
      if pre = [] then [slash] else pre := by
  have hfront : ((pre ++ slash :: (name ++ List.replicate n slash)).rdropWhile
      (· = slash)).rdropWhile (· ≠ slash) = pre ++ [slash] := by
    rw [← List.cons_append, ← List.append_assoc, rdropWhile_slashes,
      show pre ++ slash :: name = (pre ++ [slash]) ++ name by simp, rdropWhile_name hne hname,
      List.append_assoc]
    exact rdropWhile_slash hname
  have hroot : (pre ++ [slash] = [slash]) ↔ pre = [] := by simp
  rw [parentDir]
  simp only [hfront, hroot, List.dropLast_concat]
  rw [if_neg (by simp)]

/-! ## The whole function -/

theorem dirname_name_slashes {name : List UInt8} (hname : slash ∉ name) (n : Nat) :
    (dirname (name ++ List.replicate n slash) >>= cstr) = .ok (bytes ".") := by
  have hloop : dirnameLoop (name ++ List.replicate n slash)
      (name ++ List.replicate n slash).length = .ok (-1) := by
    rw [dirnameLoop_down (Nat.zero_le _) (Nat.le_refl _) fun i hi _ => ?_]
    · rfl
    · exact @not_splits_of_le [] name n i hname hi
  have hmalloc : (malloc 2 : CRun (List (Option UInt8))) = .ok [none, none] := rfl
  rw [dirname, hloop, ok_bind, if_pos (by decide), hmalloc, ok_bind, if_pos rfl]
  rfl

theorem dirname_component {pre name : List UInt8} (hne : name ≠ []) (hname : slash ∉ name)
    (n : Nat) (hnul : 0 ∉ pre ++ slash :: (name ++ List.replicate n slash))
    (hmax : (pre ++ slash :: (name ++ List.replicate n slash)).length + 1 ≤ ptrdiffMax) :
    (dirname (pre ++ slash :: (name ++ List.replicate n slash)) >>= cstr) =
      .ok (if pre = [] then [slash] else pre) := by
  have hpos := List.length_pos_of_ne_nil hne
  have hlen : (pre ++ slash :: (name ++ List.replicate n slash)).length =
      pre.length + 1 + (name.length + n) := by
    simp only [List.length_append, List.length_cons, List.length_replicate]
    omega
  have hsplits : Splits (pre ++ slash :: (name ++ List.replicate n slash)) pre.length := by
    obtain ⟨d, rest, rfl⟩ := List.exists_cons_of_ne_nil hne
    refine ⟨by simp, d, by simp, ?_⟩
    rintro rfl
    exact hname List.mem_cons_self
  -- no `/` behind the one in front of the last component stops the loop
  have hdown : ∀ i, pre.length + 1 ≤ i →
      ¬ Splits (pre ++ slash :: (name ++ List.replicate n slash)) i := by
    intro i hi
    have hnot := @not_splits_of_le (pre ++ [slash]) name n i hname (by simpa using hi)
    rwa [List.append_assoc, List.singleton_append] at hnot
  have hloop : dirnameLoop (pre ++ slash :: (name ++ List.replicate n slash))
      (pre ++ slash :: (name ++ List.replicate n slash)).length = .ok (pre.length : Int) := by
    rw [dirnameLoop_down (k := pre.length + 1) (by omega) (Nat.le_refl _)
      fun i hi _ => hdown i hi]
    exact dirnameLoop_stop hsplits
  rw [dirname, hloop, ok_bind]
  by_cases hpre : pre = []
  · subst hpre
    have hmalloc : (malloc 2 : CRun (List (Option UInt8))) = .ok [none, none] := rfl
    rw [if_pos (by decide), hmalloc, ok_bind, if_neg (by decide), if_pos rfl]
    rfl
  · have hprepos := List.length_pos_of_ne_nil hpre
    rw [if_neg (by omega), if_neg hpre, Int.toNat_natCast,
      copyPrefix_string (by omega) hnul (by omega), List.take_left' rfl]

/-- **The whole function.** It never reads or writes outside its blocks. -/
theorem dirname_eq_parentDir (str : List UInt8) (hnul : 0 ∉ str)
    (hmax : str.length + 1 ≤ ptrdiffMax) : (dirname str >>= cstr) = .ok (parentDir str) := by
  rcases slash_cases str with ⟨name, n, hname, rfl⟩ | ⟨pre, name, n, hne, hname, rfl⟩
  · rw [parentDir_name hname]
    exact dirname_name_slashes hname n
  · rw [parentDir_component hne hname]
    exact dirname_component hne hname n hnul hmax

/-! ## The two functions -/

theorem slashes_suffix_iff {pre last : List UInt8} (hlast : last ≠ [])
    (hslash : slash ∉ last.dropLast) :
    bytes "//" <:+ pre ++ slash :: last ↔ last = [slash] := by
  constructor
  · rintro ⟨t, ht⟩
    obtain ⟨w, c, rfl⟩ := (List.eq_nil_or_concat' last).resolve_left hlast
    rw [List.dropLast_concat] at hslash
    have hsplit : (t ++ [slash]) ++ [slash] = (pre ++ slash :: w) ++ [c] := by
      rw [List.append_assoc, List.append_assoc, List.cons_append]
      exact ht
    obtain ⟨hfront, hc⟩ := List.append_inj' hsplit rfl
    rcases List.eq_nil_or_concat' w with rfl | ⟨v, d, rfl⟩
    · exact hc.symm
    · have hfront' : t ++ [slash] = (pre ++ slash :: v) ++ [d] := by
        rw [List.append_assoc, List.cons_append]
        exact hfront
      obtain ⟨-, hd⟩ := List.append_inj' hfront' rfl
      have hmem : slash ∈ v ++ [d] := by
        rw [List.singleton_inj.1 hd]
        exact List.mem_append_right _ List.mem_cons_self
      exact absurd hmem hslash
  · rintro rfl
    exact ⟨pre, rfl⟩

/-- Where a path ends in `//`, only `.` in front of that is the parent as well. -/
theorem parentDir_slashes_iff (pre : List UInt8) :
    (if pre = [] then [slash] else pre) = parentDir (pre ++ [slash, slash]) ↔
      pre = bytes "." := by
  rcases slash_cases pre with ⟨name, n, hname, rfl⟩ | ⟨pre, name, n, hne, hname, rfl⟩
  · have hparent : parentDir ((name ++ List.replicate n slash) ++ [slash, slash]) = bytes "." := by
      rw [List.append_assoc, show [slash, slash] = List.replicate 2 slash from rfl,
        List.replicate_append_replicate]
      exact parentDir_name hname (n + 2)
    rw [hparent]
    by_cases hpre : name ++ List.replicate n slash = []
    · rw [if_pos hpre, hpre]
      decide
    · rw [if_neg hpre]
  · have hparent : parentDir
        ((pre ++ slash :: (name ++ List.replicate n slash)) ++ [slash, slash]) =
        if pre = [] then [slash] else pre := by
      rw [List.append_assoc, List.cons_append, List.append_assoc,
        show [slash, slash] = List.replicate 2 slash from rfl, List.replicate_append_replicate]
      exact parentDir_component hne hname (n + 2)
    have hpos := List.length_pos_of_ne_nil hne
    have hlen : (pre ++ slash :: (name ++ List.replicate n slash)).length =
        pre.length + 1 + (name.length + n) := by
      simp only [List.length_append, List.length_cons, List.length_replicate]
      omega
    rw [hparent, if_neg (by simp)]
    -- the parent is shorter than what stands in front of the `//`, and so is `.`
    refine iff_of_false (fun heq => ?_) fun heq => ?_
    · have hlen' := congrArg List.length heq
      split at hlen'
      · rw [hlen, List.length_singleton] at hlen'
        omega
      · omega
    · have hlen' := congrArg List.length heq
      rw [hlen, show (bytes ".").length = 1 from rfl] at hlen'
      omega

/-- The last component with slashes behind it, where there is more behind a `/` than one more. -/
theorem exists_name {last : List UInt8} (hlast : last ≠ []) (hslash : slash ∉ last.dropLast)
    (hend : last ≠ [slash]) :
    ∃ name n, name ≠ [] ∧ slash ∉ name ∧ last = name ++ List.replicate n slash := by
  obtain ⟨w, c, rfl⟩ := (List.eq_nil_or_concat' last).resolve_left hlast
  rw [List.dropLast_concat] at hslash
  by_cases hc : c = slash
  · subst hc
    refine ⟨w, 1, ?_, hslash, rfl⟩
    rintro rfl
    exact hend rfl
  · refine ⟨w ++ [c], 0, by simp, ?_, (List.append_nil _).symm⟩
    rw [List.mem_append, List.mem_singleton, not_or]
    exact ⟨hslash, Ne.symm hc⟩

theorem fileDirname_eq_parentDir_iff {path : List UInt8} (h : slash ∈ path.dropLast) :
    fileDirname path = parentDir path ↔ (bytes "//" <:+ path → path = bytes ".//") := by
  obtain ⟨pre, last, rfl, hlast, hslash⟩ := exists_last_slash h
  rw [fileDirname_slash hlast hslash, slashes_suffix_iff hlast hslash]
  by_cases hend : last = [slash]
  · subst hend
    rw [parentDir_slashes_iff]
    constructor
    · rintro rfl _
      rfl
    · intro heq
      exact List.append_cancel_right (heq rfl)
  · refine iff_of_true ?_ fun hend' => absurd hend' hend
    obtain ⟨name, n, hne, hname, rfl⟩ := exists_name hlast hslash hend
    exact (parentDir_component hne hname n).symm

/-- **When both `dirname`s return the same.** -/
theorem dirname_agree_iff (path : List UInt8) (hne : path ≠ []) (hnul : 0 ∉ path)
    (hfile : isHttpPath path = false) (hmax : path.length + 1 ≤ ptrdiffMax) :
    (Ryze.dirname path >>= cstr) = (dirname path >>= cstr) ↔
      slash ∈ path.dropLast ∧ (bytes "//" <:+ path → path = bytes ".//") := by
  rw [dirname_eq_parentDir path hnul hmax]
  by_cases hslash : slash ∈ path.dropLast
  · obtain ⟨pre, last, rfl, hlast, hlast'⟩ := exists_last_slash hslash
    have hright : (Ryze.dirname (pre ++ slash :: last) >>= cstr) =
        .ok (fileDirname (pre ++ slash :: last)) := dirname_file hlast hlast' hfile hnul hmax
    rw [hright, ← fileDirname_eq_parentDir_iff hslash, and_iff_right hslash, Except.ok.injEq]
  · have hpos := List.length_pos_of_ne_nil hne
    have hread : Ryze.dirname path = .error .read := by
      rw [Ryze.dirname, schemeLen_file hfile, if_neg (by omega),
        dirnameLoop_wraps hslash (by omega)]
      rfl
    rw [hread]
    exact iff_of_false (fun heq => by cases heq) fun h => hslash h.1

theorem dirname_agree_dir :
    (Ryze.dirname (bytes "/a/b/") >>= cstr) = (dirname (bytes "/a/b/") >>= cstr) ∧
      (Ryze.dirname (bytes "/a//") >>= cstr) ≠ (dirname (bytes "/a//") >>= cstr) :=
  ⟨(dirname_agree_iff (bytes "/a/b/") (by decide) (by decide) (by decide) (by decide)).2
      (by decide),
    fun h => absurd
      ((dirname_agree_iff (bytes "/a//") (by decide) (by decide) (by decide) (by decide)).1 h)
      (by decide)⟩

end Test

end Ryze
