import Ryze.Lib.Handoff

set_option autoImplicit false

/-! # Where a worker thread is

Both event loops of the repository run the same kind of worker: lock, wait for a request on a
condition variable, take it, unlock, call its work, lock, append it to the second list, unlock. A
mutex-protected section is one step, so a worker is only ever seen between its sections, and inside
`pthread_cond_wait`, which gives the mutex up. -/

namespace Ryze

open Handoff Population

inductive EvPhase (ρ : Type)
  /-- in front of the first section -/
  | top
  /-- inside `pthread_cond_wait` -/
  | blocked
  /-- inside `pthread_cond_wait`, woken, without the mutex yet -/
  | woken
  /-- behind the first section -/
  | took (r : ρ)
  /-- inside `req->work(req)` -/
  | working (r : ρ)
  /-- in front of the second section -/
  | worked (r : ρ)
deriving DecidableEq, Repr

/-- The steps of the workers and of those who add requests; `w` is whom a signal wakes. -/
inductive EvAction (ι ρ : Type)
  /-- `EV_REQ_ADD`, by any thread -/
  | add (r : ρ) (w : Option ι)
  /-- a worker enters the first section -/
  | enter (i : ι) (w : Option ι)
  /-- a spurious wake-up -/
  | wake (i : ι)
  /-- a woken worker has the mutex again -/
  | resume (i : ι) (w : Option ι)
  /-- `req->work(req)` is called -/
  | call (i : ι)
  /-- `req->work(req)` returns -/
  | ret (i : ι)
  /-- the second section -/
  | append (i : ι)

/-- What a worker has in hand. -/
def EvPhase.hand {ρ : Type} : EvPhase ρ → Hand ρ
  | .top => .free
  | .blocked => .free
  | .woken => .free
  | .took r => .took r
  | .working r => .working r
  | .worked r => .worked r

def EvPhase.isBlocked {ρ : Type} : EvPhase ρ → Bool
  | .blocked => true
  | _ => false

def EvPhase.isWoken {ρ : Type} : EvPhase ρ → Bool
  | .woken => true
  | _ => false

section Phases

variable {ρ : Type}

@[simp] theorem EvPhase.isBlocked_top : (.top : EvPhase ρ).isBlocked = false := rfl
@[simp] theorem EvPhase.isBlocked_blocked : (.blocked : EvPhase ρ).isBlocked = true := rfl
@[simp] theorem EvPhase.isBlocked_woken : (.woken : EvPhase ρ).isBlocked = false := rfl
@[simp] theorem EvPhase.isBlocked_took (r : ρ) : (.took r : EvPhase ρ).isBlocked = false := rfl
@[simp] theorem EvPhase.isBlocked_working (r : ρ) : (.working r : EvPhase ρ).isBlocked = false := rfl
@[simp] theorem EvPhase.isBlocked_worked (r : ρ) : (.worked r : EvPhase ρ).isBlocked = false := rfl

@[simp] theorem EvPhase.isWoken_top : (.top : EvPhase ρ).isWoken = false := rfl
@[simp] theorem EvPhase.isWoken_blocked : (.blocked : EvPhase ρ).isWoken = false := rfl
@[simp] theorem EvPhase.isWoken_woken : (.woken : EvPhase ρ).isWoken = true := rfl
@[simp] theorem EvPhase.isWoken_took (r : ρ) : (.took r : EvPhase ρ).isWoken = false := rfl
@[simp] theorem EvPhase.isWoken_working (r : ρ) : (.working r : EvPhase ρ).isWoken = false := rfl
@[simp] theorem EvPhase.isWoken_worked (r : ρ) : (.worked r : EvPhase ρ).isWoken = false := rfl

end Phases

/-- The workers' hands. -/
def hands {ι ρ : Type} (phase : ι → EvPhase ρ) (i : ι) : Hand ρ := (phase i).hand

section Hands

variable {ι ρ : Type} [DecidableEq ι]

theorem hands_update (phase : ι → EvPhase ρ) (i : ι) (p : EvPhase ρ) :
    hands (Function.update phase i p) = Function.update (hands phase) i p.hand := by
  funext j
  by_cases hj : j = i
  · subst hj
    simp [hands]
  · simp [hands, Function.update_of_ne hj]

/-- A worker with free hands that waits, wakes or is woken keeps them free. -/
theorem hands_update_free {phase : ι → EvPhase ρ} {i : ι} (hi : (phase i).hand = .free)
    {p : EvPhase ρ} (hp : p.hand = .free) :
    hands (Function.update phase i p) = hands phase := by
  rw [hands_update, hp, ← hi]
  exact Function.update_eq_self i (hands phase)

variable [Fintype ι] [DecidableEq ρ]

/-- `pthread_cond_signal`: the blocked worker `w` is woken, if there is one. -/
def condSignal (phase : ι → EvPhase ρ) (w : Option ι) : Option (ι → EvPhase ρ) :=
  signal .blocked .woken phase w

theorem hands_condSignal {phase phase' : ι → EvPhase ρ} {w : Option ι}
    (h : condSignal phase w = some phase') : hands phase' = hands phase := by
  rcases signal_cases h with ⟨i, hi, rfl⟩ | ⟨_, rfl⟩
  · exact hands_update_free (by rw [hi]; rfl) rfl
  · rfl

/-- A signal moves one worker from the blocked to the woken ones, unless none is blocked. -/
theorem howMany_condSignal {phase phase' : ι → EvPhase ρ} {w : Option ι}
    (h : condSignal phase w = some phase') :
    (howMany phase EvPhase.isBlocked = howMany phase' EvPhase.isBlocked + 1 ∧
      howMany phase' EvPhase.isWoken = howMany phase EvPhase.isWoken + 1) ∨
    (howMany phase EvPhase.isBlocked = 0 ∧ phase' = phase) := by
  rcases signal_cases h with ⟨i, hi, rfl⟩ | ⟨hnone, rfl⟩
  · have hblocked := howMany_update hi .woken EvPhase.isBlocked
    have hwoken := howMany_update hi .woken EvPhase.isWoken
    simp at hblocked hwoken
    exact Or.inl ⟨by omega, by omega⟩
  · refine Or.inr ⟨howMany_eq_zero.2 fun i => ?_, rfl⟩
    cases hp : phase' i with
    | blocked => exact absurd hp (hnone i)
    | top => rfl
    | woken => rfl
    | took r => rfl
    | working r => rfl
    | worked r => rfl

end Hands

/-! ## A worker's steps seen by the pool -/

section Pool

variable {ι ρ : Type} [DecidableEq ι] [DecidableEq ρ] {phase : ι → EvPhase ρ} {i : ι} {r : ρ}

theorem pool_take (hi : (phase i).hand = .free) (rest : List ρ) (ledger : Ledger ρ) :
    Pool.step ⟨r :: rest, hands phase, ledger⟩ (.take i)
      = some ⟨rest, hands (Function.update phase i (.took r)),
          { ledger with taken := ledger.taken ++ [r] }⟩ := by
  have hhand : hands phase i = .free := hi
  simp only [Pool.step, hhand, hands_update]
  rfl

theorem pool_call (hi : phase i = .took r) (queue : List ρ) (ledger : Ledger ρ) :
    Pool.step ⟨queue, hands phase, ledger⟩ (.call i)
      = some ⟨queue, hands (Function.update phase i (.working r)),
          { ledger with called := ledger.called ++ [r] }⟩ := by
  have hhand : hands phase i = .took r := by rw [hands, hi]; rfl
  simp only [Pool.step, hhand, hands_update]
  rfl

theorem pool_ret (hi : phase i = .working r) (queue : List ρ) (ledger : Ledger ρ) :
    Pool.step ⟨queue, hands phase, ledger⟩ (.ret i)
      = some ⟨queue, hands (Function.update phase i (.worked r)),
          { ledger with returned := ledger.returned ++ [r] }⟩ := by
  have hhand : hands phase i = .working r := by rw [hands, hi]; rfl
  simp only [Pool.step, hhand, hands_update]
  rfl

theorem pool_append (hi : phase i = .worked r) (queue : List ρ) (ledger : Ledger ρ) :
    Pool.step ⟨queue, hands phase, ledger⟩ (.append i)
      = some ⟨queue, hands (Function.update phase i .top),
          { ledger with appended := ledger.appended ++ [r] }⟩ := by
  have hhand : hands phase i = .worked r := by rw [hands, hi]; rfl
  simp only [Pool.step, hhand, hands_update]
  rfl

end Pool

end Ryze
