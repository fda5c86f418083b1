import Ryze.Ev.Worker

set_option autoImplicit false

/-! # The work queue of `src/ev/ev.c`

`EV_REQ_ADD` and `ev_work` as steps on the shared part of `struct ev_loop`. The label of a step that
signals says which blocked worker is woken; a blocked worker may also wake by itself. The ledger is
history that the code does not keep. Seen through the workers' hands the queue is a pool
(`workQueue_refines`), which gives each request its one place; the count of waiting threads and the
requests that wait while a worker is blocked are an invariant of their own (`EvLoop.WaitInv`). -/

namespace Ryze

open Handoff Population Transition

/-- The part of `struct ev_loop` the workers share, and where each of them is. -/
structure EvLoop (ι ρ : Type) where
  list0 : List ρ
  list1 : List ρ
  waitThreads : Int
  phase : ι → EvPhase ρ
  ledger : Ledger ρ

variable {ι ρ : Type} [DecidableEq ι] [Fintype ι] [DecidableEq ρ]

/-- `pthread_cond_signal(&loop->cond[0])`. -/
def EvLoop.signal (s : EvLoop ι ρ) (w : Option ι) : Option (EvLoop ι ρ) :=
  (condSignal s.phase w).map fun phase => { s with phase := phase }

/-- The first section of worker `i` from the test of its inner loop on: wait, or take the first
    request and signal if there are more. -/
def EvLoop.takeOrWait (s : EvLoop ι ρ) (i : ι) (w : Option ι) : Option (EvLoop ι ρ) :=
  match s.list0 with
  | [] => some { s with
      waitThreads := s.waitThreads + 1
      phase := Function.update s.phase i .blocked }
  | r :: rest =>
    let s' := { s with
      list0 := rest
      phase := Function.update s.phase i (.took r)
      ledger := { s.ledger with taken := s.ledger.taken ++ [r] } }
    if rest ≠ [] ∧ s.waitThreads > 0 then s'.signal w else some s'

/-- One step; a request that is added is a fresh one. -/
def EvLoop.step (s : EvLoop ι ρ) : EvAction ι ρ → Option (EvLoop ι ρ)
  | .add r w =>
    if r ∈ s.ledger.submitted then none
    else
      let s' := { s with
        list0 := s.list0 ++ [r]
        ledger := { s.ledger with submitted := s.ledger.submitted ++ [r] } }
      if s.waitThreads > 0 then s'.signal w else some s'
  | .enter i w => if s.phase i = .top then s.takeOrWait i w else none
  | .wake i =>
    if s.phase i = .blocked then some { s with phase := Function.update s.phase i .woken } else none
  | .resume i w =>
    if s.phase i = .woken then { s with waitThreads := s.waitThreads - 1 }.takeOrWait i w else none
  | .call i =>
    match s.phase i with
    | .took r => some { s with
        phase := Function.update s.phase i (.working r)
        ledger := { s.ledger with called := s.ledger.called ++ [r] } }
    | _ => none
  | .ret i =>
    match s.phase i with
    | .working r => some { s with
        phase := Function.update s.phase i (.worked r)
        ledger := { s.ledger with returned := s.ledger.returned ++ [r] } }
    | _ => none
  | .append i =>
    match s.phase i with
    | .worked r => some { s with
        list1 := s.list1 ++ [r]
        phase := Function.update s.phase i .top
        ledger := { s.ledger with appended := s.ledger.appended ++ [r] } }
    | _ => none

/-- The loop as `ev_loop_init` leaves it. -/
def workQueue (ι ρ : Type) [DecidableEq ι] [Fintype ι] [DecidableEq ρ] :
    System (EvLoop ι ρ) (EvAction ι ρ) where
  init := ⟨[], [], 0, fun _ => .top, .empty⟩
  step := EvLoop.step

/-! ## What a section can do -/

theorem EvLoop.signal_eq {s s' : EvLoop ι ρ} {w : Option ι} (h : s.signal w = some s') :
    ∃ phase, condSignal s.phase w = some phase ∧ s' = { s with phase := phase } := by
  obtain ⟨phase, hphase, rfl⟩ := Option.map_eq_some_iff.1 h
  exact ⟨phase, hphase, rfl⟩

/-- The first section either blocks the worker on an empty list, or takes the first request and leaves
    the phases as they are or signalled. -/
theorem EvLoop.takeOrWait_cases {s s' : EvLoop ι ρ} {i : ι} {w : Option ι}
    (h : s.takeOrWait i w = some s') :
    (s.list0 = [] ∧ s' = { s with
      waitThreads := s.waitThreads + 1
      phase := Function.update s.phase i .blocked }) ∨
    ∃ r rest phase, s.list0 = r :: rest ∧
      (phase = Function.update s.phase i (.took r) ∧ (rest = [] ∨ s.waitThreads ≤ 0) ∨
        condSignal (Function.update s.phase i (.took r)) w = some phase) ∧
      s' = { s with
        list0 := rest
        phase := phase
        ledger := { s.ledger with taken := s.ledger.taken ++ [r] } } := by
  simp only [EvLoop.takeOrWait] at h
  split at h
  · next hlist =>
      cases h
      exact Or.inl ⟨hlist, rfl⟩
  · next r rest hlist =>
      refine Or.inr ⟨r, rest, ?_⟩
      split at h
      · obtain ⟨phase, hphase, rfl⟩ := EvLoop.signal_eq h
        exact ⟨phase, hlist, Or.inr hphase, rfl⟩
      · next hcond =>
          cases h
          refine ⟨_, hlist, Or.inl ⟨rfl, ?_⟩, rfl⟩
          by_cases hrest : rest = []
          · exact Or.inl hrest
          · exact Or.inr (by by_contra hgt; exact hcond ⟨hrest, by omega⟩)

/-- What a step can do: each action with its guard and the state it leaves. -/
theorem EvLoop.step_cases {s s' : EvLoop ι ρ} {a : EvAction ι ρ} (h : s.step a = some s') :
    (∃ r w phase, a = .add r w ∧ r ∉ s.ledger.submitted ∧
      (phase = s.phase ∧ s.waitThreads ≤ 0 ∨
        0 < s.waitThreads ∧ condSignal s.phase w = some phase) ∧
      s' = { s with
        list0 := s.list0 ++ [r]
        phase := phase
        ledger := { s.ledger with submitted := s.ledger.submitted ++ [r] } }) ∨
    (∃ i w, a = .enter i w ∧ s.phase i = .top ∧ s.takeOrWait i w = some s') ∨
    (∃ i, a = .wake i ∧ s.phase i = .blocked ∧
      s' = { s with phase := Function.update s.phase i .woken }) ∨
    (∃ i w, a = .resume i w ∧ s.phase i = .woken ∧
      EvLoop.takeOrWait { s with waitThreads := s.waitThreads - 1 } i w = some s') ∨
    (∃ i r, a = .call i ∧ s.phase i = .took r ∧ s' = { s with
      phase := Function.update s.phase i (.working r)
      ledger := { s.ledger with called := s.ledger.called ++ [r] } }) ∨
    (∃ i r, a = .ret i ∧ s.phase i = .working r ∧ s' = { s with
      phase := Function.update s.phase i (.worked r)
      ledger := { s.ledger with returned := s.ledger.returned ++ [r] } }) ∨
    ∃ i r, a = .append i ∧ s.phase i = .worked r ∧ s' = { s with
      list1 := s.list1 ++ [r]
      phase := Function.update s.phase i .top
      ledger := { s.ledger with appended := s.ledger.appended ++ [r] } } := by
  cases a with
  | add r w =>
      refine Or.inl ?_
      simp only [EvLoop.step] at h
      split at h
      · cases h
      · next hfresh =>
          split at h
          · next hwait =>
              obtain ⟨phase, hphase, rfl⟩ := EvLoop.signal_eq h
              exact ⟨r, w, phase, rfl, hfresh, Or.inr ⟨hwait, hphase⟩, rfl⟩
          · next hwait =>
              cases h
              exact ⟨r, w, s.phase, rfl, hfresh, Or.inl ⟨rfl, not_lt.1 hwait⟩, rfl⟩
  | enter i w =>
      refine Or.inr (Or.inl ?_)
      simp only [EvLoop.step] at h
      split at h
      · next hi => exact ⟨i, w, rfl, hi, h⟩
      · cases h
  | wake i =>
      refine Or.inr (Or.inr (Or.inl ?_))
      simp only [EvLoop.step] at h
      split at h
      · next hi =>
          cases h
          exact ⟨i, rfl, hi, rfl⟩
      · cases h
  | resume i w =>
      refine Or.inr (Or.inr (Or.inr (Or.inl ?_)))
      simp only [EvLoop.step] at h
      split at h
      · next hi => exact ⟨i, w, rfl, hi, h⟩
      · cases h
  | call i =>
      refine Or.inr (Or.inr (Or.inr (Or.inr (Or.inl ?_))))
      simp only [EvLoop.step] at h
      split at h
      · next r hi =>
          cases h
          exact ⟨i, r, rfl, hi, rfl⟩
      · cases h
  | ret i =>
      refine Or.inr (Or.inr (Or.inr (Or.inr (Or.inr (Or.inl ?_)))))
      simp only [EvLoop.step] at h
      split at h
      · next r hi =>
          cases h
          exact ⟨i, r, rfl, hi, rfl⟩
      · cases h
  | append i =>
      refine Or.inr (Or.inr (Or.inr (Or.inr (Or.inr (Or.inr ?_)))))
      simp only [EvLoop.step] at h
      split at h
      · next r hi =>
          cases h
          exact ⟨i, r, rfl, hi, rfl⟩
      · cases h

/-! ## The queue as a pool -/

/-- The queue seen through the workers' hands. -/
def EvLoop.pool (s : EvLoop ι ρ) : Pool ι ρ := ⟨s.list0, hands s.phase, s.ledger⟩

theorem EvLoop.pool_takeOrWait {s s' : EvLoop ι ρ} {i : ι} {w : Option ι}
    (hi : (s.phase i).hand = .free) (h : s.takeOrWait i w = some s') :
    s'.pool = s.pool ∨ s.pool.step (.take i) = some s'.pool := by
  rcases EvLoop.takeOrWait_cases h with ⟨_, rfl⟩ | ⟨r, rest, phase, hlist, hphase, rfl⟩
  · refine Or.inl ?_
    simp only [EvLoop.pool, hands_update_free hi (p := .blocked) rfl]
  · have hhands : hands phase = hands (Function.update s.phase i (.took r)) := by
      rcases hphase with ⟨rfl, _⟩ | hsignal
      · rfl
      · exact hands_condSignal hsignal
    refine Or.inr ?_
    simp only [EvLoop.pool, hlist, hhands]
    exact pool_take hi rest s.ledger

/-- **Refinement.** -/
theorem workQueue_refines : Refines (workQueue ι ρ) (system ι ρ) EvLoop.pool where
  init := rfl
  step := by
    intro s a s' _ h
    rcases EvLoop.step_cases h with ⟨r, w, phase, rfl, hfresh, hphase, rfl⟩ | ⟨i, w, rfl, hi, h⟩ |
      ⟨i, rfl, hi, rfl⟩ | ⟨i, w, rfl, hi, h⟩ | ⟨i, r, rfl, hi, rfl⟩ | ⟨i, r, rfl, hi, rfl⟩ |
      ⟨i, r, rfl, hi, rfl⟩
    · have hhands : hands phase = hands s.phase := by
        rcases hphase with ⟨rfl, _⟩ | ⟨_, hsignal⟩
        · rfl
        · exact hands_condSignal hsignal
      exact Or.inr ⟨.submit r, by
        simp only [EvLoop.pool, system, Pool.step, if_neg hfresh, hhands]⟩
    · exact (EvLoop.pool_takeOrWait (by rw [hi]; rfl) h).imp_right fun hstep => ⟨.take i, hstep⟩
    · have hfree : (s.phase i).hand = .free := by rw [hi]; rfl
      exact Or.inl (by simp only [EvLoop.pool, hands_update_free hfree (p := .woken) rfl])
    · have hfree : (s.phase i).hand = .free := by rw [hi]; rfl
      exact (EvLoop.pool_takeOrWait (s := { s with waitThreads := s.waitThreads - 1 }) hfree
        h).imp_right fun hstep => ⟨.take i, hstep⟩
    · exact Or.inr ⟨.call i, pool_call hi _ _⟩
    · exact Or.inr ⟨.ret i, pool_ret hi _ _⟩
    · exact Or.inr ⟨.append i, pool_append hi _ _⟩

/-! ## Exactly once and in order -/

theorem EvLoop.list1_takeOrWait {s s' : EvLoop ι ρ} {i : ι} {w : Option ι}
    (hlist : s.list1 = s.ledger.appended) (h : s.takeOrWait i w = some s') :
    s'.list1 = s'.ledger.appended := by
  rcases EvLoop.takeOrWait_cases h with ⟨_, rfl⟩ | ⟨r, rest, phase, _, _, rfl⟩
  · exact hlist
  · exact hlist

/-- No step of a worker or a producer takes a request off `list[1]`. -/
theorem EvLoop.list1_eq {s : EvLoop ι ρ} (hs : Reachable (workQueue ι ρ) s) :
    s.list1 = s.ledger.appended := by
  refine hs.invariant (fun s => s.list1 = s.ledger.appended) rfl ?_
  intro s a s' hinv h
  rcases EvLoop.step_cases h with ⟨r, w, phase, rfl, _, _, rfl⟩ | ⟨i, w, rfl, _, h⟩ |
    ⟨i, rfl, _, rfl⟩ | ⟨i, w, rfl, _, h⟩ | ⟨i, r, rfl, _, rfl⟩ | ⟨i, r, rfl, _, rfl⟩ |
    ⟨i, r, rfl, _, rfl⟩
  · exact hinv
  · exact EvLoop.list1_takeOrWait hinv h
  · exact hinv
  · exact EvLoop.list1_takeOrWait (s := { s with waitThreads := s.waitThreads - 1 }) hinv h
  · exact hinv
  · exact hinv
  · exact congrArg (· ++ _) hinv

/-- In every reachable state each submitted request is once in `list[0]`, in the hands of a worker
    or in `list[1]`, requests are taken in the order of submission, work is called at most once, and
    `list[1]` is what the workers appended: the requests that work has returned from, less those
    whose worker has not yet appended them. -/
theorem workQueue_exactlyOnce {s : EvLoop ι ρ} (hs : Reachable (workQueue ι ρ) s) :
    (∀ r, s.list0.count r + howMany (hands s.phase) (Hand.holds r) + s.list1.count r
      = if r ∈ s.ledger.submitted then 1 else 0) ∧
    s.ledger.taken <+: s.ledger.submitted ∧
    (∀ r, s.ledger.called.count r ≤ 1) ∧
    s.list1 = s.ledger.appended ∧
    ∀ r, r ∈ s.list1 ↔ r ∈ s.ledger.returned ∧ ∀ i, (hands s.phase i).holds r = false := by
  have hpool : s.pool.Inv := Pool.Inv.of_reachable (workQueue_refines.reachable hs)
  have hlist := EvLoop.list1_eq hs
  refine ⟨fun r => ?_, hpool.taken_inOrder, hpool.called_le_one, hlist, fun r => ?_⟩
  · rw [hlist]
    exact hpool.one_place r
  · rw [hlist, ← howMany_eq_zero]
    exact hpool.mem_appended r

theorem workQueue_exactlyOnce_one : ∃ s, Reachable (workQueue (Fin 2) Nat) s ∧
    s.list0 = [8] ∧ s.list1 = [7] ∧ s.ledger.submitted = [7, 8] ∧
    s.ledger.taken <+: s.ledger.submitted := by
  have hs := Reachable.init.run (show (workQueue (Fin 2) Nat).run (workQueue (Fin 2) Nat).init
    [.enter 0 none, .add 7 (some 0), .add 8 none, .enter 1 none, .call 1, .ret 1, .append 1]
      = some _ from rfl)
  exact ⟨_, hs, rfl, rfl, rfl, (workQueue_exactlyOnce hs).2.1⟩

/-- A worker whose work has returned still has to lock `mutex[1]`. -/
theorem workQueue_returned_not_appended : ¬ ∀ s, Reachable (workQueue (Fin 1) Nat) s →
    ∀ r, r ∈ s.list1 ↔ r ∈ s.ledger.returned := by
  intro h
  have hs := Reachable.init.run (show (workQueue (Fin 1) Nat).run (workQueue (Fin 1) Nat).init
    [.add 7 none, .enter 0 none, .call 0, .ret 0] = some _ from rfl)
  exact absurd ((h _ hs 7).2 (by decide)) (by decide)

/-! ## No lost wake-up -/

/-- `wait_threads` counts the workers inside `pthread_cond_wait`, and as long as one of them is
    blocked there is a woken worker for each request in `list[0]`. -/
structure EvLoop.WaitInv (s : EvLoop ι ρ) : Prop where
  waitThreads_eq : s.waitThreads
    = howMany s.phase EvPhase.isBlocked + howMany s.phase EvPhase.isWoken
  length_le : 0 < howMany s.phase EvPhase.isBlocked →
    s.list0.length ≤ howMany s.phase EvPhase.isWoken

/-- The first section, where `i` is in front of it or has just come out of its wait. -/
theorem EvLoop.WaitInv.takeOrWait {s s' : EvLoop ι ρ} {i : ι} {w : Option ι} {p : EvPhase ρ}
    (hi : s.phase i = p) (hp : p.isBlocked = false)
    (hwait : s.waitThreads = howMany s.phase EvPhase.isBlocked
      + howMany s.phase EvPhase.isWoken - p.isWoken.toNat)
    (hlen : 0 < howMany s.phase EvPhase.isBlocked →
      s.list0.length ≤ howMany s.phase EvPhase.isWoken)
    (h : s.takeOrWait i w = some s') : s'.WaitInv := by
  rcases EvLoop.takeOrWait_cases h with ⟨hlist, rfl⟩ | ⟨r, rest, phase, hlist, hphase, rfl⟩
  · have hblocked := howMany_update hi .blocked EvPhase.isBlocked
    have hwoken := howMany_update hi .blocked EvPhase.isWoken
    simp [hp] at hblocked hwoken
    refine ⟨?_, fun _ => ?_⟩
    · simp only
      omega
    · simp only [hlist, List.length_nil]
      exact Nat.zero_le _
  · have hblocked := howMany_update hi (.took r) EvPhase.isBlocked
    have hwoken := howMany_update hi (.took r) EvPhase.isWoken
    simp [hp] at hblocked hwoken
    rw [hlist, List.length_cons] at hlen
    have hone : p.isWoken.toNat ≤ 1 := Bool.toNat_le _
    rcases hphase with ⟨rfl, _⟩ | hsignal
    · exact ⟨by simp only; omega, fun hpos => by simp only at hpos ⊢; omega⟩
    · rcases howMany_condSignal hsignal with ⟨hfewer, hmore⟩ | ⟨hnone, rfl⟩
      · exact ⟨by simp only; omega, fun hpos => by simp only at hpos ⊢; omega⟩
      · exact ⟨by simp only; omega, fun hpos => by simp only at hpos ⊢; omega⟩

omit [DecidableEq ρ] in
/-- A worker that is not in `pthread_cond_wait` before or after the step. -/
theorem EvLoop.WaitInv.busy {s : EvLoop ι ρ} (h : s.WaitInv) {i : ι} {p q : EvPhase ρ}
    (hi : s.phase i = p) (hp : p.isBlocked = false ∧ p.isWoken = false)
    (hq : q.isBlocked = false ∧ q.isWoken = false) (list1 : List ρ) (ledger : Ledger ρ) :
    EvLoop.WaitInv { s with
      list1 := list1, phase := Function.update s.phase i q, ledger := ledger } := by
  have hblocked := howMany_update hi q EvPhase.isBlocked
  have hwoken := howMany_update hi q EvPhase.isWoken
  rw [hp.1, hq.1] at hblocked
  rw [hp.2, hq.2] at hwoken
  have heq := h.waitThreads_eq
  have hle := h.length_le
  exact ⟨by simp only; omega, fun hpos => by simp only at hpos ⊢; omega⟩

theorem EvLoop.WaitInv.step {s s' : EvLoop ι ρ} {a : EvAction ι ρ} (h : s.WaitInv)
    (hstep : s.step a = some s') : s'.WaitInv := by
  have heq := h.waitThreads_eq
  have hle := h.length_le
  rcases EvLoop.step_cases hstep with ⟨r, w, phase, rfl, _, hphase, rfl⟩ | ⟨i, w, rfl, hi, hstep⟩ |
    ⟨i, rfl, hi, rfl⟩ | ⟨i, w, rfl, hi, hstep⟩ | ⟨i, r, rfl, hi, rfl⟩ | ⟨i, r, rfl, hi, rfl⟩ |
    ⟨i, r, rfl, hi, rfl⟩
  · have hlen : (s.list0 ++ [r]).length = s.list0.length + 1 := List.length_append
    rcases hphase with ⟨rfl, hzero⟩ | ⟨_, hsignal⟩
    · -- no signal is sent, and no one is blocked either
      exact ⟨heq, fun hpos => by simp only at hpos; omega⟩
    · rcases howMany_condSignal hsignal with ⟨hfewer, hmore⟩ | ⟨hnone, rfl⟩
      · exact ⟨by simp only; omega, fun hpos => by simp only at hpos ⊢; omega⟩
      · exact ⟨heq, fun hpos => by simp only at hpos; omega⟩
  · exact EvLoop.WaitInv.takeOrWait hi rfl (by simpa [EvPhase.isWoken] using heq) hle hstep
  · have hblocked := howMany_update hi .woken EvPhase.isBlocked
    have hwoken := howMany_update hi .woken EvPhase.isWoken
    simp at hblocked hwoken
    exact ⟨by simp only; omega, fun hpos => by simp only at hpos ⊢; omega⟩
  · exact EvLoop.WaitInv.takeOrWait (s := { s with waitThreads := s.waitThreads - 1 }) hi rfl
      (by simpa [EvPhase.isWoken] using heq) hle hstep
  · exact h.busy hi ⟨rfl, rfl⟩ ⟨rfl, rfl⟩ _ _
  · exact h.busy hi ⟨rfl, rfl⟩ ⟨rfl, rfl⟩ _ _
  · exact h.busy hi ⟨rfl, rfl⟩ ⟨rfl, rfl⟩ _ _

theorem EvLoop.WaitInv.init : (workQueue ι ρ).init.WaitInv := by
  have hblocked : howMany (workQueue ι ρ).init.phase EvPhase.isBlocked = 0 :=
    howMany_eq_zero.2 fun _ => rfl
  have hwoken : howMany (workQueue ι ρ).init.phase EvPhase.isWoken = 0 :=
    howMany_eq_zero.2 fun _ => rfl
  exact ⟨by rw [hblocked, hwoken]; rfl, fun hpos => by omega⟩

/-- In every reachable state `wait_threads` is the number of workers inside `pthread_cond_wait`,
    while one of them is blocked there are at most as many requests in `list[0]` as woken workers,
    and a request does not wait while every worker is blocked. -/
theorem workQueue_noLostWakeup {s : EvLoop ι ρ} (hs : Reachable (workQueue ι ρ) s) :
    s.waitThreads = howMany s.phase EvPhase.isBlocked + howMany s.phase EvPhase.isWoken ∧
    (0 < howMany s.phase EvPhase.isBlocked →
      s.list0.length ≤ howMany s.phase EvPhase.isWoken) ∧
    ¬ (Nonempty ι ∧ s.list0 ≠ [] ∧ ∀ i, s.phase i = .blocked) := by
  have hinv : s.WaitInv := hs.invariant _ EvLoop.WaitInv.init fun _ _ _ hinv hstep =>
    hinv.step hstep
  refine ⟨hinv.waitThreads_eq, hinv.length_le, ?_⟩
  rintro ⟨⟨i⟩, hpending, hall⟩
  have hblocked : 0 < howMany s.phase EvPhase.isBlocked := howMany_pos.2 ⟨i, by rw [hall i]; rfl⟩
  have hwoken : howMany s.phase EvPhase.isWoken = 0 :=
    howMany_eq_zero.2 fun j => by rw [hall j]; rfl
  have hlen := hinv.length_le hblocked
  exact hpending (List.length_eq_zero_iff.1 (by omega))

/-- Two workers wait, a request wakes one of them, and the other stays blocked. -/
theorem workQueue_noLostWakeup_two : ∃ s, Reachable (workQueue (Fin 2) Nat) s ∧
    s.list0 = [7] ∧ s.phase 0 = .woken ∧ s.phase 1 = .blocked ∧
    s.waitThreads = howMany s.phase EvPhase.isBlocked + howMany s.phase EvPhase.isWoken := by
  have hs := Reachable.init.run (show (workQueue (Fin 2) Nat).run (workQueue (Fin 2) Nat).init
    [.enter 0 none, .enter 1 none, .add 7 (some 0)] = some _ from rfl)
  exact ⟨_, hs, rfl, rfl, rfl, (workQueue_noLostWakeup hs).1⟩

end Ryze
