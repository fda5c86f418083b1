import Ryze.Ev.EventLoop
import Ryze.Ev.Progress

set_option autoImplicit false

/-! # The event loop comes to rest

What the workers of `xxx/ev/ev.c` see of their loop is the queue of `src/ev/ev.c`: the extra writes
are not seen, and the extra signals reach nobody. So no wake-up is lost here either, and with the
loop thread's own steps every request goes all the way to its callback and its `EIO_REQ_FREE`. -/

namespace Ryze

open Handoff Population Transition

variable {ι ρ : Type} [DecidableEq ι] [Fintype ι] [DecidableEq ρ]

/-! ## The loop as a work queue -/

/-- The loop seen by its workers; what they appended stays in `list[1]`. -/
def EvLoopT.queue (s : EvLoopT ι ρ) : EvLoop ι ρ :=
  ⟨s.head0, s.ledger.appended, s.waitThreads, s.phase, s.ledger⟩

/-- Where nobody waits, `ev_work` of the one signals in vain and of the other does not signal. -/
theorem EvLoopT.queue_takeOrWait {s s' : EvLoopT ι ρ} {i : ι} {w : Option ι}
    (hi : (s.phase i).isBlocked = false)
    (hwait : s.waitThreads ≤ 0 → howMany s.phase EvPhase.isBlocked = 0)
    (h : s.takeOrWait i w = some s') : s.queue.takeOrWait i w = some s'.queue := by
  cases hhead : s.head0 with
  | nil =>
      simp only [EvLoopT.takeOrWait, hhead] at h
      simp only [EvLoop.takeOrWait, EvLoopT.queue, hhead]
      split at h
      · cases h
        rfl
      · cases h
        rfl
  | cons r rest =>
      simp only [EvLoopT.takeOrWait, hhead] at h
      simp only [EvLoop.takeOrWait, EvLoopT.queue, hhead]
      split at h
      · next hrest =>
          obtain ⟨phase, hsignal, rfl⟩ := EvLoopT.signal_eq h
          by_cases hzero : s.waitThreads > 0
          · rw [if_pos ⟨hrest, hzero⟩]
            simp only [EvLoop.signal, hsignal, Option.map_some]
          · rw [if_neg fun hcond => hzero hcond.2]
            have hblocked := howMany_update (rfl : s.phase i = _) (.took r) EvPhase.isBlocked
            rw [hi, hwait (by omega), EvPhase.isBlocked_took] at hblocked
            rw [condSignal_none hsignal (by simpa using hblocked)]
      · next hrest =>
          cases h
          rw [if_neg fun hcond => hrest hcond.1]

/-- A step of the loop is a step of the queue; the loop thread's are none. -/
theorem EvLoopT.queue_step {s s' : EvLoopT ι ρ} {a : EvLoopAction ι ρ} (hwait : s.queue.WaitInv)
    (h : s.step a = some s') : s'.queue = s.queue ∨ ∃ b, s.queue.step b = some s'.queue := by
  have heq : s.waitThreads = howMany s.phase EvPhase.isBlocked + howMany s.phase EvPhase.isWoken :=
    hwait.waitThreads_eq
  cases a with
  | run a =>
      refine Or.inl ?_
      rcases EvLoopT.runStep_cases h with ⟨_, rfl⟩ | ⟨_, rfl⟩ | ⟨_, rfl⟩ | ⟨_, _, _, _, rfl⟩ |
        ⟨_, _, rfl⟩ | ⟨_, _, rfl⟩ <;> rfl
  | work a =>
      refine Or.inr ⟨a, ?_⟩
      rcases EvLoopT.workStep_cases h with ⟨r, w, phase, rfl, hfresh, hphase, rfl⟩ |
        ⟨i, w, rfl, hi, h⟩ | ⟨i, rfl, hi, rfl⟩ | ⟨i, w, rfl, hi, h⟩ | ⟨i, r, rfl, hi, rfl⟩ |
        ⟨i, r, rfl, hi, rfl⟩ | ⟨i, r, rfl, hi, _, rfl⟩
      · simp only [EvLoop.step]
        rw [if_neg (show r ∉ s.queue.ledger.submitted from hfresh)]
        rcases hphase with ⟨rfl, hzero⟩ | ⟨hpos, hsignal⟩
        · rw [if_neg (show ¬ s.queue.waitThreads > 0 from not_lt.2 hzero)]
          rfl
        · rw [if_pos (show s.queue.waitThreads > 0 from hpos), EvLoop.signal]
          exact congrArg (Option.map _) hsignal
      · simp only [EvLoop.step]
        rw [if_pos (show s.queue.phase i = .top from hi)]
        exact EvLoopT.queue_takeOrWait (by rw [hi]; rfl) (by omega) h
      · simp only [EvLoop.step]
        rw [if_pos (show s.queue.phase i = .blocked from hi)]
        rfl
      · -- one of those that are counted is `i` itself
        have hpos : 0 < howMany s.phase EvPhase.isWoken := howMany_pos.2 ⟨i, by rw [hi]; rfl⟩
        simp only [EvLoop.step]
        rw [if_pos (show s.queue.phase i = .woken from hi)]
        exact EvLoopT.queue_takeOrWait (s := { s with waitThreads := s.waitThreads - 1 })
          (by rw [hi]; rfl) (fun hle => by simp only at hle ⊢; omega) h
      · simp only [EvLoop.step, EvLoopT.queue, hi]
      · simp only [EvLoop.step, EvLoopT.queue, hi]
      · simp only [EvLoop.step, EvLoopT.queue, hi]
        rfl

theorem EvLoopT.queue_reachable {s : EvLoopT ι ρ} (hs : Reachable (eventLoop ι ρ) s) :
    Reachable (workQueue ι ρ) s.queue := by
  refine hs.invariant (fun s => Reachable (workQueue ι ρ) s.queue) Reachable.init ?_
  intro s a s' hqueue h
  rcases EvLoopT.queue_step (EvLoop.WaitInv.of_reachable hqueue) h with heq | ⟨b, hb⟩
  · rw [heq]
    exact hqueue
  · exact hqueue.step b hb

/-- **Refinement.** To its workers the loop with the eventfd is the queue of `src/ev/ev.c`. -/
theorem eventLoop_refines_workQueue :
    Refines (eventLoop ι ρ) (workQueue ι ρ) EvLoopT.queue where
  init := rfl
  step := fun _ _ _ hs h =>
    EvLoopT.queue_step (EvLoop.WaitInv.of_reachable (EvLoopT.queue_reachable hs)) h

/-! ## The potential -/

/-- How far the loop thread is from `epoll_wait`. -/
def LoopPhase.weight : LoopPhase ρ → Nat
  | .waiting => 0
  | .readable => 3
  | .locking => 2
  | .draining => 1
  | .calling _ => 2

/-- An edge can send the loop thread round once. -/
def EvLoopT.potential (s : EvLoopT ι ρ) : Nat :=
  total s.phase (EvPhase.weight 5 12) + 15 * s.head0.length + 2 * s.head1.length
    + s.loop.weight + 4 * s.edge.toNat

def EvLoopAction.own : EvLoopAction ι ρ → Bool
  | .work a => a.own
  | .run _ => true

/-- A new request sends one worker and the loop thread round; a worker that wakes by itself may be
    the last one to wait, which sends the loop thread round too. -/
def EvLoopAction.price : EvLoopAction ι ρ → Nat
  | .work (.add _ _) => 21
  | .work (.wake _) => 6
  | _ => 0

omit [DecidableEq ι] [Fintype ι] [DecidableEq ρ] in
theorem EvLoopAction.price_own {a : EvLoopAction ι ρ} (h : a.own = true) : a.price = 0 := by
  cases a with
  | run a => rfl
  | work a =>
      cases a with
      | add r w => cases h
      | wake i => cases h
      | _ => rfl

theorem EvLoopT.takeOrWait_lowers {s s' : EvLoopT ι ρ} {i : ι} {w : Option ι}
    (hi : (s.phase i).weight 5 12 = 5) (h : s.takeOrWait i w = some s') :
    s'.potential + 1 ≤ s.potential := by
  rcases EvLoopT.takeOrWait_cases h with ⟨t, _, rfl, hwrite⟩ |
    ⟨r, rest, phase, hhead, hphase, rfl⟩
  · have htotal := total_update (rfl : s.phase i = _) .blocked (EvPhase.weight 5 12)
    have hedge : s.edge.toNat ≤ 1 := Bool.toNat_le _
    rw [hi] at htotal
    rcases hwrite with rfl | rfl
    · simp only [EvLoopT.potential, EvPhase.weight] at htotal ⊢
      omega
    · simp only [EvLoopT.potential, EvLoopT.write, EvPhase.weight, Bool.toNat_true] at htotal ⊢
      omega
  · have htotal := total_update (rfl : s.phase i = _) (.took r) (EvPhase.weight 5 12)
    rw [hi] at htotal
    have hle : total phase (EvPhase.weight 5 12)
        ≤ total (Function.update s.phase i (.took r)) (EvPhase.weight 5 12) + 5 := by
      rcases hphase with rfl | hsignal
      · omega
      · exact total_condSignal 5 12 hsignal
    simp only [EvLoopT.potential, hhead, List.length_cons, EvPhase.weight] at htotal ⊢
    omega

theorem EvLoopT.workStep_lowers {s s' : EvLoopT ι ρ} {a : EvAction ι ρ}
    (h : s.workStep a = some s') :
    s'.potential + 1 ≤ s.potential + (EvLoopAction.work a).price := by
  rcases EvLoopT.workStep_cases h with ⟨r, w, phase, rfl, _, hphase, rfl⟩ | ⟨i, w, rfl, hi, h⟩ |
    ⟨i, rfl, hi, rfl⟩ | ⟨i, w, rfl, hi, h⟩ | ⟨i, r, rfl, hi, rfl⟩ | ⟨i, r, rfl, hi, rfl⟩ |
    ⟨i, r, rfl, hi, _, rfl⟩
  · have hle : total phase (EvPhase.weight 5 12) ≤ total s.phase (EvPhase.weight 5 12) + 5 := by
      rcases hphase with ⟨rfl, _⟩ | ⟨_, hsignal⟩
      · omega
      · exact total_condSignal 5 12 hsignal
    simp only [EvLoopT.potential, EvLoopAction.price, List.length_append, List.length_singleton]
    omega
  · exact EvLoopT.takeOrWait_lowers (by rw [hi]; rfl) h
  · have htotal := total_update hi .woken (EvPhase.weight 5 12)
    simp only [EvLoopT.potential, EvLoopAction.price, EvPhase.weight] at htotal ⊢
    omega
  · exact EvLoopT.takeOrWait_lowers (s := { s with waitThreads := s.waitThreads - 1 })
      (by rw [hi]; rfl) h
  · have htotal := total_update hi (.working r) (EvPhase.weight 5 12)
    simp only [EvLoopT.potential, EvLoopAction.price, EvPhase.weight] at htotal ⊢
    omega
  · have htotal := total_update hi (.worked r) (EvPhase.weight 5 12)
    simp only [EvLoopT.potential, EvLoopAction.price, EvPhase.weight] at htotal ⊢
    omega
  · have htotal := total_update hi .top (EvPhase.weight 5 12)
    simp only [EvLoopT.potential, EvLoopT.write, EvLoopAction.price, EvPhase.weight,
      List.length_append, List.length_singleton, Bool.toNat_true] at htotal ⊢
    omega

omit [DecidableEq ι] [DecidableEq ρ] in
/-- `epoll_wait` returns once for an edge. -/
theorem EvLoopT.runStep_lowers {s s' : EvLoopT ι ρ} {a : RunAction}
    (h : s.runStep a = some s') : s'.potential + 1 ≤ s.potential := by
  cases a with
  | epollWait =>
      simp only [EvLoopT.runStep] at h
      split at h
      · next hloop =>
          split at h
          · next hedge =>
              cases h
              simp only [EvLoopT.potential, hloop, hedge.1, LoopPhase.weight, Bool.toNat_true,
                Bool.toNat_false]
              omega
          · cases h
      · cases h
  | read =>
      simp only [EvLoopT.runStep] at h
      split at h
      · next hloop =>
          cases h
          simp only [EvLoopT.potential, hloop, LoopPhase.weight]
          omega
      · cases h
  | lock =>
      simp only [EvLoopT.runStep] at h
      split at h
      · next hloop =>
          cases h
          simp only [EvLoopT.potential, hloop, LoopPhase.weight]
          omega
      · cases h
  | callback =>
      simp only [EvLoopT.runStep] at h
      split at h
      · next r rest hloop hhead =>
          cases h
          simp only [EvLoopT.potential, hloop, hhead, LoopPhase.weight, List.length_cons]
          omega
      · cases h
  | free =>
      simp only [EvLoopT.runStep] at h
      split at h
      · next r hloop =>
          cases h
          simp only [EvLoopT.potential, hloop, LoopPhase.weight]
          omega
      · cases h
  | unlock =>
      simp only [EvLoopT.runStep] at h
      split at h
      · next hloop hhead =>
          cases h
          simp only [EvLoopT.potential, hloop, LoopPhase.weight]
          omega
      · cases h

theorem eventLoop_potential :
    Potential (eventLoop ι ρ) EvLoopT.potential EvLoopAction.price where
  lowers := by
    intro s a s' _ h
    cases a with
    | work a => exact EvLoopT.workStep_lowers h
    | run a => exact EvLoopT.runStep_lowers h

/-! ## No busy waiting -/

def EvLoopAction.isAdd : EvLoopAction ι ρ → Bool
  | .work (.add _ _) => true
  | _ => false

def EvLoopAction.isWake : EvLoopAction ι ρ → Bool
  | .work (.wake _) => true
  | _ => false

omit [DecidableEq ι] [Fintype ι] [DecidableEq ρ] in
theorem EvLoopAction.sum_price (as : List (EvLoopAction ι ρ)) :
    (as.map EvLoopAction.price).sum
      = 21 * as.countP EvLoopAction.isAdd + 6 * as.countP EvLoopAction.isWake := by
  induction as with
  | nil => rfl
  | cons a as ih =>
      rw [List.map_cons, List.sum_cons, ih, List.countP_cons, List.countP_cons]
      cases a with
      | run a => simp [EvLoopAction.price, EvLoopAction.isAdd, EvLoopAction.isWake]
      | work a =>
          cases a <;> simp [EvLoopAction.price, EvLoopAction.isAdd, EvLoopAction.isWake] <;> omega

/-- **Work is paid for.** Whatever the threads do, in whatever order: the length of a run is bounded
    by the number of the workers, of the requests that were added and of the spurious wake-ups. -/
theorem eventLoop_bounded {as : List (EvLoopAction ι ρ)} {s : EvLoopT ι ρ}
    (hrun : (eventLoop ι ρ).run (eventLoop ι ρ).init as = some s) :
    as.length ≤ 5 * Fintype.card ι + 21 * as.countP EvLoopAction.isAdd
      + 6 * as.countP EvLoopAction.isWake := by
  have hle := eventLoop_potential.run Reachable.init hrun
  have hinit : (eventLoop ι ρ).init.potential = 5 * Fintype.card ι := by
    have htotal := total_const (ι := ι) (.top : EvPhase ρ) (EvPhase.weight 5 12)
    have heq : (eventLoop ι ρ).init.potential
        = total (fun _ : ι => (.top : EvPhase ρ)) (EvPhase.weight 5 12) := rfl
    rw [heq, htotal, mul_comm]
    rfl
  rw [hinit, EvLoopAction.sum_price] at hle
  omega

theorem eventLoop_bounded_one : ∃ as s,
    (eventLoop (Fin 1) Nat).run (eventLoop (Fin 1) Nat).init as = some s ∧ as.length = 13 ∧
      as.length ≤ 5 * Fintype.card (Fin 1) + 21 * as.countP EvLoopAction.isAdd
        + 6 * as.countP EvLoopAction.isWake := by
  have hrun : (eventLoop (Fin 1) Nat).run (eventLoop (Fin 1) Nat).init
    [.work (.enter 0 none), .work (.add 7 (some 0)), .work (.resume 0 none), .work (.call 0),
      .work (.ret 0), .work (.append 0), .work (.enter 0 none), .run .epollWait, .run .read,
      .run .lock, .run .callback, .run .free, .run .unlock] = some _ := rfl
  exact ⟨_, _, hrun, rfl, eventLoop_bounded hrun⟩

/-! ## Rest -/

theorem EvLoopT.exists_takeOrWait (s : EvLoopT ι ρ) (i : ι) :
    ∃ w, (s.takeOrWait i w).isSome = true := by
  cases hhead : s.head0 with
  | nil => exact ⟨none, by simp only [EvLoopT.takeOrWait, hhead, Option.isSome_some]⟩
  | cons r rest =>
      obtain ⟨w, phase, hsignal⟩ := exists_condSignal (Function.update s.phase i (.took r))
      refine ⟨w, ?_⟩
      by_cases hmore : rest ≠ []
      · simp only [EvLoopT.takeOrWait, hhead, if_pos hmore, EvLoopT.signal, hsignal,
          Option.map_some, Option.isSome_some]
      · simp only [EvLoopT.takeOrWait, hhead, if_neg hmore, Option.isSome_some]

omit [DecidableEq ι] [Fintype ι] [DecidableEq ρ] in
/-- The loop thread only ever waits in `epoll_wait`. -/
theorem EvLoopT.exists_runStep {s : EvLoopT ι ρ}
    (hloop : s.loop ≠ .waiting ∨ s.edge = true ∧ 0 < s.efd) :
    ∃ a, (s.runStep a).isSome = true := by
  cases hphase : s.loop with
  | waiting =>
      rcases hloop with hne | hedge
      · exact absurd hphase hne
      · exact ⟨.epollWait, by simp only [EvLoopT.runStep, hphase, if_pos hedge, Option.isSome_some]⟩
  | readable => exact ⟨.read, by simp only [EvLoopT.runStep, hphase, Option.isSome_some]⟩
  | locking => exact ⟨.lock, by simp only [EvLoopT.runStep, hphase, Option.isSome_some]⟩
  | draining =>
      cases hhead : s.head1 with
      | nil => exact ⟨.unlock, by simp only [EvLoopT.runStep, hphase, hhead, Option.isSome_some]⟩
      | cons r rest =>
          exact ⟨.callback, by simp only [EvLoopT.runStep, hphase, hhead, Option.isSome_some]⟩
  | calling r => exact ⟨.free, by simp only [EvLoopT.runStep, hphase, Option.isSome_some]⟩

/-- Where the loop thread does not hold `lock[1]`, a worker can go on unless it is blocked. -/
theorem EvLoopT.exists_workStep {s : EvLoopT ι ρ} {i : ι} (hlock : s.loop.holdsLock = false)
    (hi : s.phase i ≠ .blocked) : ∃ a, a.own = true ∧ (s.workStep a).isSome = true := by
  cases hphase : s.phase i with
  | top =>
      obtain ⟨w, htake⟩ := s.exists_takeOrWait i
      exact ⟨.enter i w, rfl, by simp only [EvLoopT.workStep, if_pos hphase, htake]⟩
  | blocked => exact absurd hphase hi
  | woken =>
      obtain ⟨w, htake⟩ :=
        EvLoopT.exists_takeOrWait { s with waitThreads := s.waitThreads - 1 } i
      exact ⟨.resume i w, rfl, by simp only [EvLoopT.workStep, if_pos hphase, htake]⟩
  | took r => exact ⟨.call i, rfl, by simp only [EvLoopT.workStep, hphase, Option.isSome_some]⟩
  | working r => exact ⟨.ret i, rfl, by simp only [EvLoopT.workStep, hphase, Option.isSome_some]⟩
  | worked r => exact ⟨.append i, rfl, by simp [EvLoopT.workStep, hphase, hlock]⟩

theorem EvLoopT.waiting_of_rest {s : EvLoopT ι ρ}
    (hrest : AtRest (eventLoop ι ρ) EvLoopAction.own s) :
    s.loop = .waiting ∧ ¬ (s.edge = true ∧ 0 < s.efd) := by
  have hstuck : ∀ a, ¬ (s.runStep a).isSome = true := fun a hstep => by
    rw [show s.runStep a = none from hrest (.run a) rfl] at hstep
    cases hstep
  constructor
  · by_contra hne
    obtain ⟨a, hstep⟩ := EvLoopT.exists_runStep (Or.inl hne)
    exact hstuck a hstep
  · intro hedge
    obtain ⟨a, hstep⟩ := EvLoopT.exists_runStep (Or.inr hedge)
    exact hstuck a hstep

theorem EvLoopT.blocked_of_rest {s : EvLoopT ι ρ}
    (hrest : AtRest (eventLoop ι ρ) EvLoopAction.own s) (i : ι) : s.phase i = .blocked := by
  by_contra hne
  obtain ⟨a, hown, hstep⟩ := EvLoopT.exists_workStep (s := s)
    (by rw [(EvLoopT.waiting_of_rest hrest).1]; rfl) hne
  rw [show s.workStep a = none from hrest (.work a) hown] at hstep
  cases hstep

/-- Every request has gone all the way: both lists are empty, all threads wait, and the history of
    the loop thread is one callback and its `EIO_REQ_FREE` for each request that was submitted. -/
structure EvLoopT.Delivered (s : EvLoopT ι ρ) (submitted : List ρ) : Prop where
  blocked : ∀ i, s.phase i = .blocked
  waiting : s.loop = .waiting
  head0_eq : s.head0 = []
  head1_eq : s.head1 = []
  events_eq : ∃ order : List ρ, order.Perm submitted ∧ s.events = order.flatMap served

theorem EvLoopT.delivered_of_rest [Nonempty ι] {s : EvLoopT ι ρ}
    (hs : Reachable (eventLoop ι ρ) s) (hrest : AtRest (eventLoop ι ρ) EvLoopAction.own s) :
    s.Delivered s.ledger.submitted := by
  obtain ⟨hwaiting, hedge⟩ := EvLoopT.waiting_of_rest hrest
  have hblocked := EvLoopT.blocked_of_rest hrest
  have hhead0 : s.head0 = [] :=
    (EvLoop.WaitInv.of_reachable (EvLoopT.queue_reachable hs)).list0_eq_nil hblocked
  have hdelivery := EvLoopT.Delivery.of_reachable hs
  have hhead1 : s.head1 = [] := by
    by_contra hne
    exact hedge (hdelivery.notified hwaiting hne)
  refine ⟨hblocked, hwaiting, hhead0, hhead1, frees s.events, ?_, ?_⟩
  · -- what was freed is what was called back, and that is what was appended
    have hpool : s.pool.Inv := Pool.Inv.of_reachable (eventLoop_refines.reachable hs)
    have hperm := hpool.appended_perm hhead0 fun i => by
      simp only [EvLoopT.pool, hands, hblocked i]
      rfl
    have happended := hdelivery.appended_eq
    rw [callbacks_eq hs, hwaiting, hhead1] at happended
    simp only [LoopPhase.inCall, callbacks, List.filterMap_nil, List.append_nil] at happended
    rw [← happended]
    exact hperm
  · have hevents := hdelivery.events_eq
    rw [hwaiting] at hevents
    simpa only [LoopPhase.inCall, List.append_nil] using hevents

theorem EvLoopT.step_submitted {s s' : EvLoopT ι ρ} {a : EvLoopAction ι ρ} (hown : a.own = true)
    (h : s.step a = some s') : s'.ledger.submitted = s.ledger.submitted := by
  cases a with
  | run a =>
      rcases EvLoopT.runStep_cases h with ⟨_, rfl⟩ | ⟨_, rfl⟩ | ⟨_, rfl⟩ | ⟨_, _, _, _, rfl⟩ |
        ⟨_, _, rfl⟩ | ⟨_, _, rfl⟩ <;> rfl
  | work a =>
      rcases EvLoopT.workStep_cases h with ⟨r, w, phase, rfl, _, _, rfl⟩ | ⟨i, w, rfl, _, h⟩ |
        ⟨i, rfl, _, rfl⟩ | ⟨i, w, rfl, _, h⟩ | ⟨i, r, rfl, _, rfl⟩ | ⟨i, r, rfl, _, rfl⟩ |
        ⟨i, r, rfl, _, _, rfl⟩
      · cases hown
      · exact (EvLoopT.takeOrWait_ledger h).1
      · rfl
      · exact (EvLoopT.takeOrWait_ledger h).1
      · rfl
      · rfl
      · rfl

/-- **Settling.** Without new requests and spurious wake-ups the threads stop after at most
    `potential` steps, whatever their order, and then every request that was submitted has been
    called back and freed, once. -/
theorem eventLoop_settles [Nonempty ι] {s : EvLoopT ι ρ} (hs : Reachable (eventLoop ι ρ) s) :
    Settles (eventLoop ι ρ) EvLoopAction.own s.potential
      (fun s' => s'.Delivered s.ledger.submitted) s := by
  refine eventLoop_potential.settles (fun a => EvLoopAction.price_own) hs fun as s' hrun hrest => ?_
  have hsame : s'.ledger.submitted = s.ledger.submitted :=
    hrun.keeps (P := fun t => t.ledger.submitted = s.ledger.submitted)
      (fun t a t' hown ht hstep => (EvLoopT.step_submitted hown hstep).trans ht) rfl
  rw [← hsame]
  exact EvLoopT.delivered_of_rest (hrun.reachable hs) hrest

/-- A request is added while the worker waits. -/
theorem eventLoop_settles_one : ∃ s, Reachable (eventLoop (Fin 1) Nat) s ∧
    s.ledger.submitted = [7] ∧ s.events = [] ∧
    ∃ as s', OwnRun (eventLoop (Fin 1) Nat) EvLoopAction.own s as s' ∧ s'.Delivered [7] := by
  have hs := Reachable.init.run (show (eventLoop (Fin 1) Nat).run (eventLoop (Fin 1) Nat).init
    [.work (.enter 0 none), .work (.add 7 (some 0))] = some _ from rfl)
  have hsettles := eventLoop_settles hs
  obtain ⟨as, s', hrun, hrest⟩ := hsettles.rests
  exact ⟨_, hs, rfl, rfl, as, s', hrun, hsettles.goal_of_rest as s' hrun hrest⟩

end Ryze
