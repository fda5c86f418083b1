import Ryze.Lib.Transition

set_option autoImplicit false

/-! # Two systems step by step

Systems with the same labels that can always do the same steps, and stay related: whatever runs one
of them has, the other has too. -/

namespace Transition

variable {σ τ α : Type}

/-- Related states of `M` and `N` have the same steps, to related states. -/
structure Matches (M : System σ α) (N : System τ α) (R : σ → τ → Prop) : Prop where
  init : R M.init N.init
  step : ∀ {s t}, R s t → ∀ a, (M.step s a).Rel R (N.step t a)

variable {M : System σ α} {N : System τ α} {R : σ → τ → Prop}

/-- **Run rule.** -/
theorem Matches.run (h : Matches M N R) {s : σ} {t : τ} (hst : R s t) (as : List α) :
    (M.run s as).Rel R (N.run t as) := by
  induction as generalizing s t with
  | nil => exact .some hst
  | cons a as ih =>
      simp only [System.run]
      cases hm : M.step s a with
      | none =>
          cases hn : N.step t a with
          | none => exact .none
          | some t' =>
              have hstep := h.step hst a
              rw [hm, hn] at hstep
              cases hstep
      | some s' =>
          have hstep := h.step hst a
          rw [hm] at hstep
          cases hn : N.step t a with
          | none =>
              rw [hn] at hstep
              cases hstep
          | some t' =>
              rw [hn] at hstep
              cases hstep with
              | some hst' => exact ih hst'

theorem Matches.exists_left (h : Matches M N R) {as : List α} {t : τ}
    (hrun : N.run N.init as = some t) : ∃ s, M.run M.init as = some s ∧ R s t := by
  have hrel := h.run h.init as
  rw [hrun] at hrel
  cases hm : M.run M.init as with
  | none =>
      rw [hm] at hrel
      cases hrel
  | some s =>
      rw [hm] at hrel
      cases hrel with
      | some hst => exact ⟨s, rfl, hst⟩

theorem Matches.exists_right (h : Matches M N R) {as : List α} {s : σ}
    (hrun : M.run M.init as = some s) : ∃ t, N.run N.init as = some t ∧ R s t := by
  have hrel := h.run h.init as
  rw [hrun] at hrel
  cases hn : N.run N.init as with
  | none =>
      rw [hn] at hrel
      cases hrel
  | some t =>
      rw [hn] at hrel
      cases hrel with
      | some hst => exact ⟨t, rfl, hst⟩

/-- A run that meets a condition is a run. -/
theorem System.restrict_run {P : σ → α → Prop} [∀ s a, Decidable (P s a)] {as : List α} {s s' : σ}
    (h : (M.restrict P).run s as = some s') : M.run s as = some s' := by
  induction as generalizing s with
  | nil => exact h
  | cons a as ih =>
      obtain ⟨u, hu, h⟩ := Option.bind_eq_some_iff.1 h
      simp only [System.run, (System.restrict_step.1 hu).2, Option.bind_some]
      exact ih h

end Transition
