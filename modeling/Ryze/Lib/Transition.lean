import Mathlib.Logic.Function.Basic

set_option autoImplicit false

/-! # Transition systems

A system is an initial state and a partial step function; the label of a step carries every choice
that is not determined by the state. A property of all runs is proved with the invariant rule, and
carried over from a more abstract system with the refinement rule. -/

namespace Transition

/-- States `σ`, step labels `α`; a label that is not possible in a state gives `none`. -/
structure System (σ α : Type) where
  init : σ
  step : σ → α → Option σ

section Reachable

variable {σ α : Type} {M : System σ α}

/-- The states of all runs. -/
inductive Reachable (M : System σ α) : σ → Prop
  | init : Reachable M M.init
  | step {s s' : σ} (a : α) (hs : Reachable M s) (h : M.step s a = some s') : Reachable M s'

/-- **Invariant rule.** What holds at the start and is kept by every step holds in every reachable
    state. -/
theorem Reachable.invariant (Inv : σ → Prop) (hinit : Inv M.init)
    (hstep : ∀ s a s', Inv s → M.step s a = some s' → Inv s') {s : σ} (hs : Reachable M s) :
    Inv s := by
  induction hs with
  | init => exact hinit
  | step a _ h ih => exact hstep _ a _ ih h

/-- The state after a list of steps. -/
def System.run (M : System σ α) : σ → List α → Option σ
  | s, [] => some s
  | s, a :: as => (M.step s a).bind (M.run · as)

theorem Reachable.run {as : List α} {s s' : σ} (hs : Reachable M s) (h : M.run s as = some s') :
    Reachable M s' := by
  induction as generalizing s with
  | nil =>
      cases h
      exact hs
  | cons a as ih =>
      obtain ⟨t, ht, h⟩ := Option.bind_eq_some_iff.1 h
      exact ih (hs.step a ht) h

/-- The runs of a system whose steps all meet a condition on the state before the step and the
    label. -/
def System.restrict (M : System σ α) (P : σ → α → Prop) [∀ s a, Decidable (P s a)] :
    System σ α where
  init := M.init
  step s a := if P s a then M.step s a else none

theorem System.restrict_step {P : σ → α → Prop} [∀ s a, Decidable (P s a)] {s s' : σ} {a : α} :
    (M.restrict P).step s a = some s' ↔ P s a ∧ M.step s a = some s' := by
  change (if P s a then M.step s a else none) = some s' ↔ _
  by_cases h : P s a
  · rw [if_pos h]
    exact (and_iff_right h).symm
  · rw [if_neg h]
    exact ⟨fun hnone => (nomatch hnone), fun hstep => absurd hstep.1 h⟩

theorem System.restrict_of_pos {P : σ → α → Prop} [∀ s a, Decidable (P s a)] {s : σ} {a : α}
    (h : P s a) : (M.restrict P).step s a = M.step s a := if_pos h

theorem Reachable.of_restrict {P : σ → α → Prop} [∀ s a, Decidable (P s a)] {s : σ}
    (hs : Reachable (M.restrict P) s) : Reachable M s := by
  induction hs with
  | init => exact Reachable.init
  | step a _ h ih => exact ih.step a (System.restrict_step.1 h).2

end Reachable

section Refinement

variable {σ τ α β : Type} {M : System σ α} {N : System τ β}

/-- Every step of a run of `M` is, seen through `abs`, a step of `N` or no step at all. -/
structure Refines (M : System σ α) (N : System τ β) (abs : σ → τ) : Prop where
  init : abs M.init = N.init
  step : ∀ s a s', Reachable M s → M.step s a = some s' →
    abs s' = abs s ∨ ∃ b, N.step (abs s) b = some (abs s')

/-- **Refinement rule.** -/
theorem Refines.reachable {abs : σ → τ} (h : Refines M N abs) {s : σ} (hs : Reachable M s) :
    Reachable N (abs s) := by
  induction hs with
  | init =>
      rw [h.init]
      exact Reachable.init
  | step a hs hstep ih =>
      rcases h.step _ a _ hs hstep with heq | ⟨b, hb⟩
      · rw [heq]
        exact ih
      · exact ih.step b hb

/-- **Lifting rule.** Where `M` can follow every step of `N`, it reaches whatever `N` reaches. -/
theorem Reachable.lift {abs : σ → τ} (hinit : abs M.init = N.init)
    (hstep : ∀ s b t, Reachable M s → N.step (abs s) b = some t →
      ∃ a s', M.step s a = some s' ∧ abs s' = t) {t : τ} (ht : Reachable N t) :
    ∃ s, Reachable M s ∧ abs s = t := by
  induction ht with
  | init => exact ⟨M.init, Reachable.init, hinit⟩
  | step b _ hb ih =>
      obtain ⟨s, hs, rfl⟩ := ih
      obtain ⟨a, s', ha, hs'⟩ := hstep s b _ hs hb
      exact ⟨s', hs.step a ha, hs'⟩

end Refinement

end Transition
