import Mathlib.Algebra.BigOperators.Group.List.Basic
import Mathlib.Algebra.GroupWithZero.Nat
import Ryze.Lib.Transition

set_option autoImplicit false

/-! # Runs that come to rest

Some steps of a system are its own, the others come from outside. A potential that every step
lowers, but for what the step pays in, bounds the length of a run by what was paid. If the own steps
pay nothing, a run of them ends at rest, where none of them is possible, however they are chosen. -/

namespace Transition

variable {σ α : Type} {M : System σ α}

/-- In every run a step lowers `potential`, but for the price it pays. -/
structure Potential (M : System σ α) (potential : σ → Nat) (price : α → Nat) : Prop where
  lowers : ∀ s a s', Reachable M s → M.step s a = some s' →
    potential s' + 1 ≤ potential s + price a

/-- A potential is one for every part of the runs. -/
theorem Potential.restrict {potential : σ → Nat} {price : α → Nat} (h : Potential M potential price)
    {P : σ → α → Prop} [∀ s a, Decidable (P s a)] : Potential (M.restrict P) potential price where
  lowers := fun s a s' hs hstep => h.lowers s a s' hs.of_restrict (System.restrict_step.1 hstep).2

/-- No own step is possible. -/
def AtRest (M : System σ α) (own : α → Bool) (s : σ) : Prop :=
  ∀ a, own a = true → M.step s a = none

/-- The own steps of a run. -/
def OwnRun (M : System σ α) (own : α → Bool) (s : σ) (as : List α) (s' : σ) : Prop :=
  (∀ a ∈ as, own a = true) ∧ M.run s as = some s'

/-- From `s` the system comes to rest by itself in at most `n` steps, on every way, and wherever it
    does `goal` holds. -/
structure Settles (M : System σ α) (own : α → Bool) (n : Nat) (goal : σ → Prop) (s : σ) : Prop where
  bounded : ∀ as s', OwnRun M own s as s' → as.length ≤ n
  goal_of_rest : ∀ as s', OwnRun M own s as s' → AtRest M own s' → goal s'
  rests : ∃ as s', OwnRun M own s as s' ∧ AtRest M own s'

/-- **Run rule.** -/
theorem Potential.run {potential : σ → Nat} {price : α → Nat} (h : Potential M potential price)
    {as : List α} {s s' : σ} (hs : Reachable M s) (hrun : M.run s as = some s') :
    potential s' + as.length ≤ potential s + (as.map price).sum := by
  induction as generalizing s with
  | nil =>
      cases hrun
      exact Nat.le_refl _
  | cons a as ih =>
      obtain ⟨t, ht, hrest⟩ := Option.bind_eq_some_iff.1 hrun
      have hstep := h.lowers s a t hs ht
      have htail := ih (hs.step a ht) hrest
      rw [List.length_cons, List.map_cons, List.sum_cons]
      omega

theorem Potential.ownRun {potential : σ → Nat} {price : α → Nat} (h : Potential M potential price)
    {own : α → Bool} (hown : ∀ a, own a = true → price a = 0) {as : List α} {s s' : σ}
    (hs : Reachable M s) (hrun : OwnRun M own s as s') :
    potential s' + as.length ≤ potential s := by
  have hsum : (as.map price).sum = 0 :=
    List.sum_eq_zero fun n hn => by
      obtain ⟨a, ha, rfl⟩ := List.mem_map.1 hn
      exact hown a (hrun.1 a ha)
  have hle := h.run hs hrun.2
  omega

theorem OwnRun.cons {own : α → Bool} {a : α} {as : List α} {s t s' : σ} (ha : own a = true)
    (hstep : M.step s a = some t) (hrun : OwnRun M own t as s') : OwnRun M own s (a :: as) s' := by
  refine ⟨fun b hb => ?_, ?_⟩
  · rcases List.mem_cons.1 hb with rfl | hb
    · exact ha
    · exact hrun.1 b hb
  · rw [System.run, hstep, Option.bind_some]
    exact hrun.2

theorem OwnRun.reachable {own : α → Bool} {as : List α} {s s' : σ} (hs : Reachable M s)
    (hrun : OwnRun M own s as s') : Reachable M s' := hs.run hrun.2

/-- What every own step keeps is kept by a run of them. -/
theorem OwnRun.keeps {own : α → Bool} {P : σ → Prop}
    (hstep : ∀ s a s', own a = true → P s → M.step s a = some s' → P s') {as : List α} {s s' : σ}
    (hs : P s) (hrun : OwnRun M own s as s') : P s' := by
  obtain ⟨hown, hrun⟩ := hrun
  induction as generalizing s with
  | nil =>
      cases hrun
      exact hs
  | cons a as ih =>
      obtain ⟨t, ht, hrest⟩ := Option.bind_eq_some_iff.1 hrun
      exact ih (hstep s a t (hown a List.mem_cons_self) hs ht)
        (fun b hb => hown b (List.mem_cons_of_mem a hb)) hrest

/-- By itself the system comes to rest. -/
theorem Potential.rests {potential : σ → Nat} {price : α → Nat} (h : Potential M potential price)
    {own : α → Bool} (hown : ∀ a, own a = true → price a = 0) {s : σ} (hs : Reachable M s) :
    ∃ as s', OwnRun M own s as s' ∧ AtRest M own s' := by
  generalize hn : potential s = n
  induction n using Nat.strongRecOn generalizing s with
  | _ n ih =>
      by_cases hrest : AtRest M own s
      · exact ⟨[], s, ⟨fun _ hmem => (by cases hmem), rfl⟩, hrest⟩
      · simp only [AtRest, not_forall] at hrest
        obtain ⟨a, ha, hne⟩ := hrest
        obtain ⟨t, ht⟩ := Option.ne_none_iff_exists'.1 hne
        have hlower := h.lowers s a t hs ht
        rw [hown a ha] at hlower
        obtain ⟨as, s', hrun, hrest'⟩ := ih (potential t) (by omega) (hs.step a ht) rfl
        exact ⟨a :: as, s', hrun.cons ha ht, hrest'⟩

/-- **Settling rule.** -/
theorem Potential.settles {potential : σ → Nat} {price : α → Nat} (h : Potential M potential price)
    {own : α → Bool} (hown : ∀ a, own a = true → price a = 0) {goal : σ → Prop} {s : σ}
    (hs : Reachable M s) (hgoal : ∀ as s', OwnRun M own s as s' → AtRest M own s' → goal s') :
    Settles M own (potential s) goal s where
  bounded := fun _ _ hrun => by
    have hle := h.ownRun hown hs hrun
    omega
  goal_of_rest := hgoal
  rests := h.rests hown hs

end Transition
