import Mathlib.Logic.Function.Basic
import Mathlib.Tactic.Cases

set_option autoImplicit false

/-! # Runs of C code

A C function is modelled as a function into `CRun`: it either returns a value or stops at the first
thing the language gives no meaning to (a read outside an object, a shift that is too wide, …), so
"the code never reads outside the buffer" is the statement that a run is not an error. Loops whose
exit is decided by their body are iterations of one body function (`cLoop`); the rules below are the
only ones their proofs use: a step of the body, exits kept under more fuel, an invariant, a variant,
and two loops side by side. -/

namespace CLib

/-- The ways a run stops without returning. -/
inductive Fault
  /-- a read outside an object, or of a byte nobody wrote -/
  | read
  /-- a write outside an object -/
  | write
  /-- a shift whose width or result does not fit the shifted type -/
  | shift
  /-- a failed `assert` -/
  | abort
  /-- the iteration bound of the model was used up -/
  | fuel
deriving DecidableEq, Repr

/-- A run of C code with result type `α`. -/
abbrev CRun (α : Type) := Except Fault α

section Bind

variable {α β : Type}

theorem bind_eq_ok {x : CRun α} {f : α → CRun β} {b : β} :
    (x >>= f) = .ok b ↔ ∃ a, x = .ok a ∧ f a = .ok b := by
  cases x with
  | error e => simp [Bind.bind, Except.bind]
  | ok a => simp [Bind.bind, Except.bind]

theorem bind_ne_error {x : CRun α} {f : α → CRun β} {e : Fault} (hx : x ≠ .error e)
    (hf : ∀ a, f a ≠ .error e) : (x >>= f) ≠ .error e := by
  cases x with
  | error e' =>
      intro h
      cases h
      exact hx rfl
  | ok a => exact hf a

@[simp] theorem ok_bind (a : α) (f : α → CRun β) : ((.ok a : CRun α) >>= f) = f a := rfl

@[simp] theorem error_bind (e : Fault) (f : α → CRun β) :
    ((.error e : CRun α) >>= f) = .error e := rfl

@[simp] theorem pure_eq_ok (a : α) : (pure a : CRun α) = .ok a := rfl

@[simp] theorem throw_eq_error (e : Fault) : (throw e : CRun α) = .error e := rfl

end Bind

/-! ## Loops -/

section Loop

variable {σ τ β γ : Type}

/-- Iterate `body` at most `n` times: `.inl s` goes round again from `s`, `.inr b` leaves the loop
    with `b`. -/
def cLoop (body : σ → CRun (σ ⊕ β)) : Nat → σ → CRun β
  | 0, _ => .error .fuel
  | n + 1, s =>
    match body s with
    | .error e => .error e
    | .ok (.inl s') => cLoop body n s'
    | .ok (.inr b) => .ok b

theorem cLoop_next {body : σ → CRun (σ ⊕ β)} {s s' : σ} (h : body s = .ok (.inl s')) (n : Nat) :
    cLoop body (n + 1) s = cLoop body n s' := by
  simp only [cLoop, h]

theorem cLoop_exit {body : σ → CRun (σ ⊕ β)} {s : σ} {b : β} (h : body s = .ok (.inr b))
    (n : Nat) : cLoop body (n + 1) s = .ok b := by
  simp only [cLoop, h]

/-- A loop that returned did so through one of the two branches of its body. -/
theorem cLoop_ok_cases {body : σ → CRun (σ ⊕ β)} {n : Nat} {s : σ} {b : β}
    (h : cLoop body n s = .ok b) :
    ∃ m, n = m + 1 ∧ (body s = .ok (.inr b) ∨
      ∃ s', body s = .ok (.inl s') ∧ cLoop body m s' = .ok b) := by
  cases n with
  | zero => simp [cLoop] at h
  | succ m =>
      refine ⟨m, rfl, ?_⟩
      simp only [cLoop] at h
      split at h
      · exact absurd h (by simp)
      · next s' hs => exact Or.inr ⟨s', hs, h⟩
      · next b' hb =>
          cases h
          exact Or.inl hb

/-- More fuel does not change how a loop ended. -/
theorem cLoop_mono {body : σ → CRun (σ ⊕ β)} {n m : Nat} (hnm : n ≤ m) {s : σ} {x : CRun β}
    (h : cLoop body n s = x) (hx : x ≠ .error .fuel) : cLoop body m s = x := by
  induction n generalizing s m with
  | zero => exact absurd h.symm hx
  | succ n ih =>
      obtain ⟨k, rfl⟩ : ∃ k, m = k + 1 := ⟨m - 1, by omega⟩
      simp only [cLoop] at h ⊢
      split at h
      · exact h
      · exact ih (by omega) h
      · exact h

/-- **Invariant rule.** What the body keeps from round to round, and turns into `Post` on leaving,
    holds of everything the loop returns. -/
theorem cLoop_invariant {body : σ → CRun (σ ⊕ β)} (Inv : σ → Prop) (Post : β → Prop)
    (hnext : ∀ s s', Inv s → body s = .ok (.inl s') → Inv s')
    (hexit : ∀ s b, Inv s → body s = .ok (.inr b) → Post b)
    {n : Nat} {s : σ} {b : β} (hs : Inv s) (h : cLoop body n s = .ok b) : Post b := by
  induction n generalizing s with
  | zero => simp [cLoop] at h
  | succ n ih =>
      obtain ⟨m, hm, hcase⟩ := cLoop_ok_cases h
      obtain rfl : n = m := by omega
      rcases hcase with hb | ⟨s', hs', hrest⟩
      · exact hexit s b hs hb
      · exact ih (hnext s s' hs hs') hrest

/-- The states a loop started at `s₀` goes through. -/
inductive LoopReaches (body : σ → CRun (σ ⊕ β)) (s₀ : σ) : σ → Prop
  | start : LoopReaches body s₀ s₀
  | next {s s' : σ} (hs : LoopReaches body s₀ s) (h : body s = .ok (.inl s')) :
      LoopReaches body s₀ s'

theorem LoopReaches.invariant {body : σ → CRun (σ ⊕ β)} {s₀ : σ} (Inv : σ → Prop) (hstart : Inv s₀)
    (hnext : ∀ s s', Inv s → body s = .ok (.inl s') → Inv s') {s : σ}
    (hs : LoopReaches body s₀ s) : Inv s := by
  induction hs with
  | start => exact hstart
  | next _ h ih => exact hnext _ _ ih h

theorem LoopReaches.head {body : σ → CRun (σ ⊕ β)} {s s' t : σ} (h : body s = .ok (.inl s'))
    (ht : LoopReaches body s' t) : LoopReaches body s t := by
  induction ht with
  | start => exact .next .start h
  | next _ hnext ih => exact .next ih hnext

/-- What holds in every state the loop goes through holds now and from the next round on. -/
theorem forall_reaches_next {body : σ → CRun (σ ⊕ β)} {s s' : σ} (h : body s = .ok (.inl s'))
    (P : σ → Prop) :
    (∀ t, LoopReaches body s t → P t) ↔ P s ∧ ∀ t, LoopReaches body s' t → P t := by
  constructor
  · intro hall
    exact ⟨hall s .start, fun t ht => hall t (ht.head h)⟩
  · rintro ⟨hs, hall⟩ t ht
    have hcase : t = s ∨ LoopReaches body s' t := by
      induction ht with
      | start => exact Or.inl rfl
      | next _ hnext ih =>
          rcases ih with rfl | ht
          · rw [h] at hnext
            cases hnext
            exact Or.inr .start
          · exact Or.inr (.next ht hnext)
    rcases hcase with rfl | ht
    · exact hs
    · exact hall t ht

/-- A loop that does not go round again from `s` goes through no other state. -/
theorem forall_reaches_last {body : σ → CRun (σ ⊕ β)} {s : σ} (h : ∀ s', body s ≠ .ok (.inl s'))
    (P : σ → Prop) : (∀ t, LoopReaches body s t → P t) ↔ P s := by
  constructor
  · intro hall
    exact hall s .start
  · intro hs t ht
    refine ht.invariant (fun t => t = s) rfl ?_ ▸ hs
    rintro t t' rfl hnext
    exact absurd hnext (h t')

/-- What a loop returned it returned in one of the states it went through. -/
theorem cLoop_exit_state {body : σ → CRun (σ ⊕ β)} {s₀ : σ} {n : Nat} {s : σ} {b : β}
    (hs : LoopReaches body s₀ s) (h : cLoop body n s = .ok b) :
    ∃ t, LoopReaches body s₀ t ∧ body t = .ok (.inr b) := by
  induction n generalizing s with
  | zero => simp [cLoop] at h
  | succ n ih =>
      obtain ⟨m, hm, hcase⟩ := cLoop_ok_cases h
      obtain rfl : n = m := by omega
      rcases hcase with hb | ⟨s', hs', hrest⟩
      · exact ⟨s, hs, hb⟩
      · exact ih (hs.next hs') hrest

/-- A loop that returned returns from every state it went through. -/
theorem cLoop_ok_of_reaches {body : σ → CRun (σ ⊕ β)} {s₀ : σ} {n : Nat} {b : β}
    (h : cLoop body n s₀ = .ok b) {s : σ} (hs : LoopReaches body s₀ s) :
    ∃ m, cLoop body m s = .ok b := by
  induction hs with
  | start => exact ⟨n, h⟩
  | next _ hnext ih =>
      obtain ⟨m, hm⟩ := ih
      obtain ⟨k, -, hexit | ⟨t, ht, hrest⟩⟩ := cLoop_ok_cases hm
      · rw [hnext] at hexit
        cases hexit
      · rw [hnext] at ht
        cases ht
        exact ⟨k, hrest⟩

/-- A loop returns what it returns from a state it goes through. -/
theorem cLoop_ok_from_reaches {body : σ → CRun (σ ⊕ β)} {s₀ s : σ} (hs : LoopReaches body s₀ s)
    {m : Nat} {b : β} (h : cLoop body m s = .ok b) : ∃ n, cLoop body n s₀ = .ok b := by
  induction hs generalizing m with
  | start => exact ⟨m, h⟩
  | next _ hnext ih => exact ih ((cLoop_next hnext m).trans h)

/-- A loop with enough fuel returns what it returns with other fuel. -/
theorem cLoop_ok_of_ne_fuel {body : σ → CRun (σ ⊕ β)} {n m : Nat} {s : σ} {b : β}
    (h : cLoop body m s = .ok b) (hn : cLoop body n s ≠ .error .fuel) : cLoop body n s = .ok b := by
  rcases Nat.le_total m n with hmn | hnm
  · exact cLoop_mono hmn h (by simp)
  · rw [← cLoop_mono hnm rfl hn, h]

/-- A loop that stopped at a fault ran out of rounds, or stopped in one of the states it went
    through. -/
theorem cLoop_error_state {body : σ → CRun (σ ⊕ β)} {s₀ : σ} {n : Nat} {s : σ} {e : Fault}
    (hs : LoopReaches body s₀ s) (h : cLoop body n s = .error e) :
    e = .fuel ∨ ∃ t, LoopReaches body s₀ t ∧ body t = .error e := by
  induction n generalizing s with
  | zero => exact Or.inl (Except.error.inj h).symm
  | succ n ih =>
      rcases hbody : body s with e' | (s' | b)
      · have hstop : cLoop body (n + 1) s = .error e' := by simp only [cLoop, hbody]
        rw [hstop] at h
        cases h
        exact Or.inr ⟨s, hs, hbody⟩
      · rw [cLoop_next hbody] at h
        exact ih (hs.next hbody) h
      · rw [cLoop_exit hbody] at h
        cases h

/-- **Variant rule.** A loop whose rounds make `μ` smaller ends within `μ` rounds. -/
theorem cLoop_ne_fuel {body : σ → CRun (σ ⊕ β)} {s₀ : σ} (μ : σ → Nat)
    (hnext : ∀ s s', LoopReaches body s₀ s → body s = .ok (.inl s') → μ s' < μ s)
    (hne : ∀ s, body s ≠ .error .fuel) {n : Nat} {s : σ} (hs : LoopReaches body s₀ s)
    (hn : μ s < n) : cLoop body n s ≠ .error .fuel := by
  induction n generalizing s with
  | zero => omega
  | succ n ih =>
      rcases hbody : body s with e | (s' | b)
      · have hstop : cLoop body (n + 1) s = .error e := by simp only [cLoop, hbody]
        rw [hstop]
        intro hfuel
        cases hfuel
        exact hne s hbody
      · rw [cLoop_next hbody]
        have hlt := hnext s s' hs hbody
        exact ih (hs.next hbody) (by omega)
      · rw [cLoop_exit hbody]
        simp

end Loop

/-! ## Two runs side by side -/

section Lockstep

variable {σ τ α β γ : Type}

/-- Two runs stop at the same fault, or return values that `Q` relates. -/
def RunRel (Q : α → β → Prop) : CRun α → CRun β → Prop
  | .ok a, .ok b => Q a b
  | .error e, .error e' => e = e'
  | .ok _, .error _ => False
  | .error _, .ok _ => False

/-- **Lockstep rule.** Two loops whose rounds go the same way, from the states the first one goes
    through, end the same way. -/
theorem cLoop_lockstep {body : σ → CRun (σ ⊕ β)} {body' : τ → CRun (τ ⊕ γ)} {s₀ : σ}
    (R : σ → τ → Prop) (Q : β → γ → Prop)
    (hstep : ∀ s t, LoopReaches body s₀ s → R s t → RunRel (Sum.LiftRel R Q) (body s) (body' t))
    {s : σ} {t : τ} (hreach : LoopReaches body s₀ s) (h : R s t) (n : Nat) :
    RunRel Q (cLoop body n s) (cLoop body' n t) := by
  induction n generalizing s t with
  | zero => rfl
  | succ n ih =>
      have hround := hstep s t hreach h
      unfold cLoop
      rcases hs : body s with e | (s' | b)
      · rcases ht : body' t with e' | (t' | c)
        · rw [hs, ht] at hround
          exact hround
        · rw [hs, ht] at hround
          exact hround.elim
        · rw [hs, ht] at hround
          exact hround.elim
      · rcases ht : body' t with e' | (t' | c)
        · rw [hs, ht] at hround
          exact hround.elim
        · rw [hs, ht] at hround
          exact ih (hreach.next hs) (Sum.liftRel_inl_inl.1 hround)
        · rw [hs, ht] at hround
          exact (Sum.not_liftRel_inl_inr hround).elim
      · rcases ht : body' t with e' | (t' | c)
        · rw [hs, ht] at hround
          exact hround.elim
        · rw [hs, ht] at hround
          exact (Sum.not_liftRel_inr_inl hround).elim
        · rw [hs, ht] at hround
          show Q b c
          exact Sum.liftRel_inr_inr.1 hround

end Lockstep

end CLib
