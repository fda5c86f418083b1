import Mathlib.Algebra.BigOperators.Group.Finset.Piecewise
import Mathlib.Data.Fintype.Card

set_option autoImplicit false

/-! # Populations

A finite population of members, each of them in some state: how many are in a state of a given kind,
and what all states weigh together, when one member changes its state; and the signalling of a
condition variable, which moves one waiting member, if there is one, out of its wait. -/

namespace Population

variable {ι α : Type} [Fintype ι] [DecidableEq ι]

/-- How many members are in a state that satisfies `p`. -/
def howMany (f : ι → α) (p : α → Bool) : Nat := (Finset.univ.filter fun i => p (f i) = true).card

/-- A member that changes its state leaves one kind and joins another. -/
theorem howMany_update {f : ι → α} {i : ι} {u : α} (hi : f i = u) (v : α) (p : α → Bool) :
    howMany (Function.update f i v) p + (p u).toNat = howMany f p + (p v).toNat := by
  have hsum : ∀ g : ι → α, howMany g p
      = (p (g i)).toNat + ∑ j ∈ Finset.univ.erase i, (p (g j)).toNat := by
    intro g
    rw [howMany, Finset.card_filter, Finset.add_sum_erase _ (fun j => (p (g j)).toNat)
      (Finset.mem_univ i)]
    refine Finset.sum_congr rfl fun j _ => ?_
    cases p (g j) <;> rfl
  have hrest : ∑ j ∈ Finset.univ.erase i, (p (Function.update f i v j)).toNat
      = ∑ j ∈ Finset.univ.erase i, (p (f j)).toNat := by
    refine Finset.sum_congr rfl fun j hj => ?_
    rw [Function.update_of_ne (Finset.ne_of_mem_erase hj)]
  rw [hsum (Function.update f i v), hsum f, hrest, Function.update_self, hi]
  omega

omit [DecidableEq ι] in
theorem howMany_pos {f : ι → α} {p : α → Bool} : 0 < howMany f p ↔ ∃ i, p (f i) = true := by
  rw [howMany, Finset.card_pos]
  constructor
  · rintro ⟨i, hi⟩
    exact ⟨i, (Finset.mem_filter.1 hi).2⟩
  · rintro ⟨i, hi⟩
    exact ⟨i, Finset.mem_filter.2 ⟨Finset.mem_univ i, hi⟩⟩

omit [DecidableEq ι] in
theorem howMany_eq_zero {f : ι → α} {p : α → Bool} :
    howMany f p = 0 ↔ ∀ i, p (f i) = false := by
  rw [howMany, Finset.card_eq_zero, Finset.filter_eq_empty_iff]
  simp

omit [DecidableEq ι] in
theorem howMany_mono {f : ι → α} {p q : α → Bool} (h : ∀ i, p (f i) = true → q (f i) = true) :
    howMany f p ≤ howMany f q :=
  Finset.card_le_card fun i hi =>
    Finset.mem_filter.2 ⟨Finset.mem_univ i, h i (Finset.mem_filter.1 hi).2⟩

/-- What the members' states weigh together. -/
def total (f : ι → α) (weight : α → Nat) : Nat := ∑ i, weight (f i)

/-- A member that changes its state takes its weight along. -/
theorem total_update {f : ι → α} {i : ι} {u : α} (hi : f i = u) (v : α) (weight : α → Nat) :
    total (Function.update f i v) weight + weight u = total f weight + weight v := by
  have hrest : ∑ j ∈ Finset.univ.erase i, weight (Function.update f i v j)
      = ∑ j ∈ Finset.univ.erase i, weight (f j) :=
    Finset.sum_congr rfl fun j hj => by rw [Function.update_of_ne (Finset.ne_of_mem_erase hj)]
  have hnew := Finset.add_sum_erase Finset.univ (fun j => weight (Function.update f i v j))
    (Finset.mem_univ i)
  have hold := Finset.add_sum_erase Finset.univ (fun j => weight (f j)) (Finset.mem_univ i)
  simp only [Function.update_self, hi] at hnew hold
  rw [total, total, ← hnew, ← hold, hrest]
  omega

omit [DecidableEq ι] in
theorem total_const (a : α) (weight : α → Nat) :
    total (fun _ : ι => a) weight = Fintype.card ι * weight a :=
  Finset.sum_const_nat fun _ _ => rfl

/-- Signal a condition variable: the member `w` stops waiting; with no one waiting nothing
    happens. -/
def signal [DecidableEq α] (waiting woken : α) (f : ι → α) : Option ι → Option (ι → α)
  | some w => if f w = waiting then some (Function.update f w woken) else none
  | none => if ∃ i, f i = waiting then none else some f

/-- What a signal can do. -/
theorem signal_cases [DecidableEq α] {waiting woken : α} {f f' : ι → α} {w : Option ι}
    (h : signal waiting woken f w = some f') :
    (∃ i, f i = waiting ∧ f' = Function.update f i woken) ∨
      ((∀ i, f i ≠ waiting) ∧ f' = f) := by
  cases w with
  | some i =>
      simp only [signal] at h
      split at h
      · next hi =>
          cases h
          exact Or.inl ⟨i, hi, rfl⟩
      · cases h
  | none =>
      simp only [signal] at h
      split at h
      · cases h
      · next hnone =>
          cases h
          exact Or.inr ⟨fun i hi => hnone ⟨i, hi⟩, rfl⟩

end Population
