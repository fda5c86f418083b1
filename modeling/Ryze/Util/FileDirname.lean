import Ryze.Util.Dirname
import Mathlib.Data.List.DropRight

set_option autoImplicit false

/-! # `dirname` of file paths

For a path without a scheme the loop counts down to 0, and a `size_t` is never below 0: the test
`i >= start` always holds. Only a `/` in front of the final byte stops the loop; without one `i` wraps
and the byte in front of the path is read next. -/

namespace Ryze

open CLib

/-- What stands before the last `/` that is not the final byte of a path; `/` if nothing does, and if
    there is no such `/` the directory of a name. -/
def fileDirname (path : List UInt8) : List UInt8 :=
  let front := path.dropLast.rdropWhile (· ≠ slash)
  if front = [] then if path.head? = some slash then [slash] else bytes "."
  else if front = [slash] then [slash]
  else front.dropLast

/-- The parts of a path with a `/` in front of its final byte. -/
theorem exists_last_slash {path : List UInt8} (h : slash ∈ path.dropLast) :
    ∃ pre last, path = pre ++ slash :: last ∧ last ≠ [] ∧ slash ∉ last.dropLast := by
  have hrev : slash ∈ path.dropLast.reverse := List.mem_reverse.2 h
  obtain ⟨b, a, hab, hb⟩ := List.eq_append_cons_of_mem hrev
  have hne : path ≠ [] := by
    rintro rfl
    simp at h
  have hdrop : path.dropLast = a.reverse ++ slash :: b.reverse := by
    rw [← List.reverse_reverse path.dropLast, hab, List.reverse_append, List.reverse_cons]
    simp
  refine ⟨a.reverse, b.reverse ++ [path.getLast hne], ?_, by simp, ?_⟩
  · calc path = path.dropLast ++ [path.getLast hne] := (List.dropLast_append_getLast hne).symm
      _ = _ := by rw [hdrop, List.append_assoc, List.cons_append]
  · rw [List.dropLast_concat]
    exact fun hmem => hb (List.mem_reverse.1 hmem)

theorem rdropWhile_slash {pre w : List UInt8} (hw : slash ∉ w) :
    (pre ++ slash :: w).rdropWhile (· ≠ slash) = pre ++ [slash] := by
  induction w using List.reverseRecOn with
  | nil => rw [List.rdropWhile_concat_neg _ _ _ (by simp)]
  | append_singleton w c ih =>
      have hc : c ≠ slash := fun h => hw (by simp [h])
      rw [← List.cons_append, ← List.append_assoc, List.rdropWhile_concat_pos _ _ _ (by simpa using hc)]
      exact ih fun h => hw (List.mem_append_left _ h)

theorem fileDirname_slash {pre last : List UInt8} (hlast : last ≠ [])
    (hslash : slash ∉ last.dropLast) :
    fileDirname (pre ++ slash :: last) = if pre = [] then [slash] else pre := by
  have hdrop : (pre ++ slash :: last).dropLast = pre ++ slash :: last.dropLast := by
    rw [List.dropLast_append_of_ne_nil (by simp), List.dropLast_cons_of_ne_nil hlast]
  have hfront : (pre ++ [slash] = [slash]) ↔ pre = [] := by simp
  simp only [fileDirname, hdrop, rdropWhile_slash hslash, hfront, List.dropLast_concat]
  rw [if_neg (by simp)]

/-! ## The loop without a `/` to stop at -/

theorem schemeLen_file {path : List UInt8} (hfile : isHttpPath path = false) : schemeLen path = 0 := by
  simp only [isHttpPath, Bool.or_eq_false_iff, decide_eq_false_iff_not] at hfile
  rw [schemeLen, if_neg hfile.1, if_neg hfile.2]

theorem dirnameLoop_wraps {path : List UInt8} (hslash : slash ∉ path.dropLast) {i : Nat}
    (hi : i < path.length) : dirnameLoop path 0 i = .error .read := by
  have hload : ∀ k < path.length, ∃ c, loadCell (cstrMem path) k = .ok c ∧
      ¬ (c = slash ∧ k ≠ path.length - 1) := by
    intro k hk
    obtain ⟨c, hc⟩ : ∃ c, path[k]? = some c := ⟨_, List.getElem?_eq_getElem hk⟩
    refine ⟨c, ?_, ?_⟩
    · have hget : (path ++ [0])[k]? = some c := by rw [List.getElem?_append_left hk, hc]
      rw [cstrMem, loadCell, cells, List.getElem?_map, hget]
      rfl
    · rintro ⟨rfl, hend⟩
      have hget : path.dropLast[k]? = some slash := by
        rw [List.getElem?_dropLast, if_pos (by omega), hc]
      exact hslash (List.mem_of_getElem? hget)
  induction i with
  | zero =>
      obtain ⟨c, hc, hskip⟩ := hload 0 hi
      rw [dirnameLoop, if_pos (Nat.le_refl 0), hc, ok_bind, if_neg hskip]
      rfl
  | succ i ih =>
      obtain ⟨c, hc, hskip⟩ := hload (i + 1) hi
      rw [dirnameLoop, if_pos (Nat.zero_le _), hc, ok_bind, if_neg hskip]
      exact ih (by omega)

/-! ## The whole function -/

/-- The call ends, reads no byte outside the path, and returns its directory. -/
def DirnameRight (path : List UInt8) : Prop := (dirname path >>= cstr) = .ok (fileDirname path)

theorem dirname_root {last : List UInt8} (hlast : last ≠ []) (hslash : slash ∉ last.dropLast)
    (hfile : isHttpPath (slash :: last) = false) :
    (dirname (slash :: last) >>= cstr) = .ok [slash] := by
  have hpos := List.length_pos_of_ne_nil hlast
  have hloop := @dirnameLoop_back [] last hlast hslash 0 (Nat.le_refl 0) last.length (Nat.le_refl _)
  rw [List.nil_append, List.length_nil, Nat.zero_add] at hloop
  have hmalloc : (malloc 2 : CRun (List (Option UInt8))) = .ok [none, none] := rfl
  have hload : loadCell (cstrMem (slash :: last)) 0 = .ok slash := rfl
  have hlen : (slash :: last).length - 1 = last.length := by
    rw [List.length_cons]
    omega
  rw [dirname, schemeLen_file hfile, if_neg (by simp), hlen, hloop, ok_bind,
    if_pos rfl, hfile, if_neg (by simp), hmalloc, ok_bind, hload, ok_bind]
  rfl

theorem dirname_file {pre last : List UInt8} (hlast : last ≠ []) (hslash : slash ∉ last.dropLast)
    (hfile : isHttpPath (pre ++ slash :: last) = false) (hnul : 0 ∉ pre ++ slash :: last)
    (hmax : (pre ++ slash :: last).length + 1 ≤ ptrdiffMax) :
    DirnameRight (pre ++ slash :: last) := by
  rw [DirnameRight, fileDirname_slash hlast hslash]
  by_cases hpre : pre = []
  · subst hpre
    rw [if_pos rfl]
    exact dirname_root hlast hslash hfile
  · have hpos := List.length_pos_of_ne_nil hpre
    have hlen : (pre ++ slash :: last).length = pre.length + 1 + last.length := by
      simp only [List.length_append, List.length_cons]
      omega
    have hloop := dirnameLoop_back hlast hslash (Nat.zero_le pre.length) (Nat.le_refl last.length)
    have hcopy := copyPrefix_string (n := pre.length) (by omega) hnul (by omega)
    rw [List.take_left' rfl] at hcopy
    rw [if_neg hpre, dirname, schemeLen_file hfile, if_neg (by omega),
      show (pre ++ slash :: last).length - 1 = pre.length + last.length by omega, hloop, ok_bind, if_neg (by omega)]
    exact hcopy

/-- **When `dirname` of a file path is right.** -/
theorem dirname_right_iff (path : List UInt8) (hne : path ≠ []) (hnul : 0 ∉ path)
    (hfile : isHttpPath path = false) (hmax : path.length + 1 ≤ ptrdiffMax) :
    DirnameRight path ↔ slash ∈ path.dropLast := by
  constructor
  · intro h
    by_contra hslash
    have hpos := List.length_pos_of_ne_nil hne
    rw [DirnameRight, dirname, schemeLen_file hfile, if_neg (by omega),
      dirnameLoop_wraps hslash (by omega)] at h
    cases h
  · intro hslash
    obtain ⟨pre, last, rfl, hlast, hlast'⟩ := exists_last_slash hslash
    exact dirname_file hlast hlast' hfile hnul hmax

theorem dirname_right_dir : DirnameRight (bytes "/a/b/") ∧ fileDirname (bytes "/a/b/") = bytes "/a" :=
  ⟨(dirname_right_iff (bytes "/a/b/") (by decide) (by decide) (by decide) (by decide)).2 (by decide),
    by decide⟩

/-- A name without a `/`. -/
theorem dirname_name :
    ¬ ∀ path : List UInt8, path ≠ [] → 0 ∉ path → isHttpPath path = false →
      path.length + 1 ≤ ptrdiffMax → DirnameRight path := by
  intro h
  have hright := h (bytes "a") (by decide) (by decide) (by decide) (by decide)
  have hrun : dirname (bytes "a") = .error .read := by decide +kernel
  rw [DirnameRight, hrun] at hright
  cases hright

end Ryze
