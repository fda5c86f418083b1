import Mathlib.Logic.Function.Basic

set_option autoImplicit false

/-! # Mutexes

Threads `θ` run sections under mutexes `ι`, at most one section at a time. A thread inside a section
holds its mutex; it may also hold one outside of all sections, when it has left a section without
unlocking. -/

namespace Mutexes

variable {ι θ : Type} {holder : ι → Option θ} {inside : θ → Option ι}

/-- Who is inside a section holds its mutex. -/
def Held (holder : ι → Option θ) (inside : θ → Option ι) : Prop :=
  ∀ t i, inside t = some i → holder i = some t

theorem Held.exclusive (h : Held holder inside) {t u : θ} {i : ι} (ht : inside t = some i)
    (hu : inside u = some i) : t = u := by
  have := h t i ht
  rw [h u i hu] at this
  exact (Option.some.inj this).symm

variable [DecidableEq ι] [DecidableEq θ]

/-- A thread that gets a free mutex and goes inside. -/
theorem Held.lock (h : Held holder inside) {i : ι} (hfree : holder i = none) (t : θ) :
    Held (Function.update holder i (some t)) (Function.update inside t (some i)) := by
  intro u j hu
  by_cases hut : u = t
  · subst hut
    rw [Function.update_self] at hu
    cases hu
    exact Function.update_self ..
  · rw [Function.update_of_ne hut] at hu
    have hj := h u j hu
    have hne : j ≠ i := by
      rintro rfl
      rw [hfree] at hj
      cases hj
    rw [Function.update_of_ne hne, hj]

/-- A thread that unlocks the mutex of its section. -/
theorem Held.unlock (h : Held holder inside) {t : θ} {i : ι} (ht : inside t = some i) :
    Held (Function.update holder i none) (Function.update inside t none) := by
  intro u j hu
  by_cases hut : u = t
  · rw [hut, Function.update_self] at hu
    cases hu
  · rw [Function.update_of_ne hut] at hu
    have hne : j ≠ i := by
      rintro rfl
      exact hut (h.exclusive hu ht)
    rw [Function.update_of_ne hne]
    exact h u j hu

omit [DecidableEq ι] in
/-- A thread that leaves its section and keeps the mutex. -/
theorem Held.leave (h : Held holder inside) (t : θ) :
    Held holder (Function.update inside t none) := by
  intro u j hu
  by_cases hut : u = t
  · rw [hut, Function.update_self] at hu
    cases hu
  · rw [Function.update_of_ne hut] at hu
    exact h u j hu

/-- Who holds a mutex is inside its section: no section was left without unlocking. -/
def Exact (holder : ι → Option θ) (inside : θ → Option ι) : Prop :=
  ∀ i t, holder i = some t → inside t = some i

/-- A thread that was outside of all sections. -/
theorem Exact.lock (h : Exact holder inside) {t : θ} (hout : inside t = none) (i : ι) :
    Exact (Function.update holder i (some t)) (Function.update inside t (some i)) := by
  intro j u hj
  by_cases hji : j = i
  · subst hji
    rw [Function.update_self] at hj
    cases hj
    exact Function.update_self ..
  · rw [Function.update_of_ne hji] at hj
    have hu := h j u hj
    have hne : u ≠ t := by
      rintro rfl
      rw [hout] at hu
      cases hu
    rw [Function.update_of_ne hne, hu]

theorem Exact.unlock (h : Exact holder inside) {t : θ} {i : ι} (ht : inside t = some i) :
    Exact (Function.update holder i none) (Function.update inside t none) := by
  intro j u hj
  by_cases hji : j = i
  · rw [hji, Function.update_self] at hj
    cases hj
  · rw [Function.update_of_ne hji] at hj
    have hu := h j u hj
    have hne : u ≠ t := by
      rintro rfl
      rw [ht] at hu
      exact hji (Option.some.inj hu).symm
    rw [Function.update_of_ne hne, hu]

omit [DecidableEq ι] in
/-- A thread that leaves its section and holds nothing. -/
theorem Exact.leave (h : Exact holder inside) {t : θ} (hnone : ∀ i, holder i ≠ some t) :
    Exact holder (Function.update inside t none) := by
  intro i u hu
  have hne : u ≠ t := by
    rintro rfl
    exact hnone i hu
  rw [Function.update_of_ne hne]
  exact h i u hu

end Mutexes
