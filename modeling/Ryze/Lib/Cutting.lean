import Mathlib.Data.List.Infix
import Mathlib.Data.List.Basic
import Mathlib.Data.Nat.Find

set_option autoImplicit false

/-! # Cutting a list at a delimiter

The occurrences of `d` in a list are looked for from left to right, each behind the end of the one
before it, so occurrences that overlap are not all counted. What stands between them are the pieces
(`Pieces`); there is one way to cut a list (`Pieces.unique`), and joining the pieces with `d` gives
the list back (`Pieces.join`). -/

namespace Cutting

variable {α : Type}

/-- `d` stands in `s` from position `i` on. -/
def OccursAt (d s : List α) (i : Nat) : Prop := d <+: s.drop i

theorem occursAt_append (d a b : List α) : OccursAt d (a ++ d ++ b) a.length := by
  rw [OccursAt, List.append_assoc, List.drop_left]
  exact List.prefix_append d b

theorem eq_append_of_occursAt {d s : List α} {i : Nat} (h : OccursAt d s i) :
    ∃ b, s = s.take i ++ d ++ b := by
  obtain ⟨b, hb⟩ := h
  exact ⟨b, by rw [List.append_assoc, hb, List.take_append_drop]⟩

theorem OccursAt.lt_length {d s : List α} {i : Nat} (h : OccursAt d s i) (hne : d ≠ []) :
    i < s.length := by
  have hle := h.length_le
  have hpos := List.length_pos_of_ne_nil hne
  rw [List.length_drop] at hle
  omega

/-- The pieces of a list between the occurrences of `d`. -/
inductive Pieces (d : List α) : List α → List (List α) → Prop
  | last {s : List α} (h : ∀ i, ¬ OccursAt d s i) : Pieces d s [s]
  | cut {a b : List α} {ps : List (List α)} (h : ∀ i < a.length, ¬ OccursAt d (a ++ d ++ b) i)
      (rest : Pieces d b ps) : Pieces d (a ++ d ++ b) (a :: ps)

section Facts

variable {d s : List α} {ps qs : List (List α)}

theorem Pieces.ne_nil (h : Pieces d s ps) : ps ≠ [] := by
  cases h with
  | last h => simp
  | cut h rest => simp

/-- Every list can be cut. -/
theorem exists_pieces (hne : d ≠ []) (s : List α) : ∃ ps, Pieces d s ps := by
  classical
  induction hn : s.length using Nat.strong_induction_on generalizing s with
  | _ n ih =>
      by_cases hex : ∃ i, OccursAt d s i
      · obtain ⟨b, hs⟩ := eq_append_of_occursAt (Nat.find_spec hex)
        have hlt := (Nat.find_spec hex).lt_length hne
        have hlen : (s.take (Nat.find hex)).length = Nat.find hex := by
          rw [List.length_take]
          omega
        have hb : b.length < n := by
          have htotal := congrArg List.length hs
          have hpos := List.length_pos_of_ne_nil hne
          rw [List.length_append, List.length_append] at htotal
          omega
        obtain ⟨ps, hps⟩ := ih b.length hb b rfl
        refine ⟨s.take (Nat.find hex) :: ps, ?_⟩
        have hfirst : ∀ i < (s.take (Nat.find hex)).length,
            ¬ OccursAt d (s.take (Nat.find hex) ++ d ++ b) i := by
          intro i hi
          rw [← hs]
          exact Nat.find_min hex (by omega)
        have hcut := Pieces.cut hfirst hps
        rwa [← hs] at hcut
      · exact ⟨[s], .last (not_exists.1 hex)⟩

theorem Pieces.join (h : Pieces d s ps) : d.intercalate ps = s := by
  induction h with
  | last h => exact List.intercalate_singleton
  | @cut a b ps h rest ih =>
      obtain ⟨p, ps, rfl⟩ := List.exists_cons_of_ne_nil rest.ne_nil
      rw [List.intercalate_cons_cons, ih]

/-- There is one way to cut a list. -/
theorem Pieces.unique (hps : Pieces d s ps) (hqs : Pieces d s qs) : ps = qs := by
  induction hps generalizing qs with
  | @last s h =>
      generalize hs : s = t at hqs
      cases hqs with
      | last h' => rfl
      | @cut a b qs h' rest =>
          rw [hs] at h
          exact absurd (occursAt_append d a b) (h _)
  | @cut a b ps h rest ih =>
      generalize hs : a ++ d ++ b = t at hqs
      cases hqs with
      | last h' =>
          rw [← hs] at h'
          exact absurd (occursAt_append d a b) (h' _)
      | @cut a' b' qs h' rest' =>
          have hlen : a.length = a'.length := by
            refine le_antisymm ?_ ?_
            · refine not_lt.1 fun hlt => h _ hlt ?_
              rw [hs]
              exact occursAt_append d a' b'
            · refine not_lt.1 fun hlt => h' _ hlt ?_
              rw [← hs]
              exact occursAt_append d a b
          rw [List.append_assoc, List.append_assoc] at hs
          obtain ⟨rfl, htail⟩ := List.append_inj hs hlen
          obtain rfl := List.append_cancel_left htail
          rw [ih rest']

theorem Pieces.mem (h : Pieces d s ps) {c : List α} (hc : c ∈ ps) {x : α} (hx : x ∈ c) : x ∈ s := by
  induction h with
  | last h =>
      rw [List.mem_singleton] at hc
      exact hc ▸ hx
  | @cut a b ps h rest ih =>
      rcases List.mem_cons.1 hc with rfl | hc
      · exact List.mem_append_left _ (List.mem_append_left _ hx)
      · exact List.mem_append_right _ (ih hc)

/-- There are no more pieces than a list one longer has members. -/
theorem Pieces.length_le (hne : d ≠ []) (h : Pieces d s ps) : ps.length ≤ s.length + 1 := by
  have hpos := List.length_pos_of_ne_nil hne
  induction h with
  | last h => simp
  | @cut a b ps h rest ih =>
      rw [List.length_cons, List.length_append, List.length_append]
      omega

end Facts

/-! ## Delimiters of one member -/

section Singleton

variable {x : α} {s : List α} {ps : List (List α)}

theorem getElem?_of_occursAt {i : Nat} (h : OccursAt [x] s i) : s[i]? = some x := by
  obtain ⟨t, ht⟩ := h
  rw [← List.head?_drop, ← ht]
  rfl

/-- The delimiter is in no piece. -/
theorem Pieces.notMem (h : Pieces [x] s ps) {c : List α} (hc : c ∈ ps) : x ∉ c := by
  induction h with
  | last h =>
      rw [List.mem_singleton.1 hc]
      intro hx
      obtain ⟨a, b, rfl⟩ := List.append_of_mem hx
      have hocc := occursAt_append [x] a b
      rw [List.append_assoc, List.singleton_append] at hocc
      exact h a.length hocc
  | @cut a b ps h rest ih =>
      rcases List.mem_cons.1 hc with rfl | hc
      · intro hx
        obtain ⟨u, v, rfl⟩ := List.append_of_mem hx
        refine h u.length (by simp) ?_
        have hocc := occursAt_append [x] u (v ++ [x] ++ b)
        simpa only [List.append_assoc, List.cons_append, List.nil_append] using hocc
      · exact ih hc

/-- Lists without the delimiter are the pieces of what joins them. -/
theorem pieces_intercalate (hne : ps ≠ []) (hps : ∀ c ∈ ps, x ∉ c) :
    Pieces [x] ([x].intercalate ps) ps := by
  induction ps with
  | nil => exact absurd rfl hne
  | cons c ps ih =>
      have hx := hps c (List.mem_cons_self ..)
      cases ps with
      | nil =>
          rw [List.intercalate_singleton]
          exact .last fun i hi => hx (List.mem_of_getElem? (getElem?_of_occursAt hi))
      | cons d ps =>
          rw [List.intercalate_cons_cons]
          refine .cut (fun i hi hocc => ?_)
            (ih (by simp) fun c hc => hps c (List.mem_cons_of_mem _ hc))
          have hget := getElem?_of_occursAt hocc
          rw [List.append_assoc, List.getElem?_append_left hi] at hget
          exact hx (List.mem_of_getElem? hget)

theorem pieces_splitOn [DecidableEq α] (x : α) (s : List α) : Pieces [x] s (s.splitOn x) := by
  obtain ⟨ps, hps⟩ := exists_pieces (List.cons_ne_nil x []) s
  have hsplit := List.splitOn_intercalate x (fun c hc => hps.notMem hc) hps.ne_nil
  rw [hps.join] at hsplit
  rw [hsplit]
  exact hps

end Singleton

/-! ## Where the pieces stand -/

/-- The positions of the occurrences between the pieces, the first piece standing at `off`. -/
def cuts (d : List α) : (off : Nat) → List (List α) → List Nat
  | _, [] => []
  | _, [_] => []
  | off, c :: cs => (off + c.length) :: cuts d (off + c.length + d.length) cs

/-- How far behind the first piece the last one stands. -/
def lastStart (d : List α) : List (List α) → Nat
  | [] => 0
  | [_] => 0
  | c :: cs => c.length + d.length + lastStart d cs

theorem cuts_cons (d c : List α) {cs : List (List α)} (hne : cs ≠ []) (off : Nat) :
    cuts d off (c :: cs) = (off + c.length) :: cuts d (off + c.length + d.length) cs := by
  rw [cuts]
  exact hne

theorem lastStart_cons (d c : List α) {cs : List (List α)} (hne : cs ≠ []) :
    lastStart d (c :: cs) = c.length + d.length + lastStart d cs := by
  rw [lastStart]
  exact hne

end Cutting
