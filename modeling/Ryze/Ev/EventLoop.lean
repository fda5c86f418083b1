import Ryze.Ev.Worker

set_option autoImplicit false

/-! # The event loop of `xxx/ev/ev.c`

`EV_REQ_ADD`, `ev_work` and `ev_loop_run` as steps on `struct ev_loop_t`. A worker writes to the
eventfd when it appends a request to `head[1]`, and when all workers wait; the loop thread waits for
the eventfd edge-triggered, resets it, and then empties `head[1]` under `lock[1]`. An edge can
fall between any two of these steps. `loop->stop` is 0 throughout and is left out. -/

namespace Ryze

open Handoff Population Transition

/-- Where the loop thread is. -/
inductive LoopPhase (ρ : Type)
  /-- inside `epoll_wait` -/
  | waiting
  /-- in front of `read` -/
  | readable
  /-- in front of `EV_LOCK(loop->lock[1])` -/
  | locking
  /-- with `lock[1]`, in front of the test of the inner loop -/
  | draining
  /-- with `lock[1]`, inside `req->callback(req)` -/
  | calling (r : ρ)
deriving DecidableEq, Repr

/-- What the loop thread does with a request. -/
inductive LoopEvent (ρ : Type)
  | callback (r : ρ)
  /-- `EIO_REQ_FREE(req)` -/
  | free (r : ρ)
deriving DecidableEq, Repr

structure EvLoopT (ι ρ : Type) where
  head0 : List ρ
  head1 : List ρ
  waitThreads : Int
  /-- the counter of the eventfd -/
  efd : Nat
  /-- an edge was raised since `epoll_wait` last returned -/
  edge : Bool
  phase : ι → EvPhase ρ
  loop : LoopPhase ρ
  ledger : Ledger ρ
  /-- the history of the loop thread -/
  events : List (LoopEvent ρ)

/-- The steps of `ev_loop_run`. -/
inductive RunAction
  | epollWait
  | read
  | lock
  | callback
  | free
  | unlock
deriving DecidableEq, Repr

inductive EvLoopAction (ι ρ : Type)
  | work (a : EvAction ι ρ)
  | run (a : RunAction)

/-- The loop thread holds `lock[1]`. -/
def LoopPhase.holdsLock {ρ : Type} : LoopPhase ρ → Bool
  | .draining => true
  | .calling _ => true
  | _ => false

/-- The callback that `EIO_REQ_FREE` has not followed yet. -/
def LoopPhase.inCall {ρ : Type} : LoopPhase ρ → List (LoopEvent ρ)
  | .calling r => [.callback r]
  | _ => []

/-- The requests that were called back, in this order. -/
def callbacks {ρ : Type} (events : List (LoopEvent ρ)) : List ρ :=
  events.filterMap fun
    | .callback r => some r
    | .free _ => none

/-- The requests that were freed, in this order. -/
def frees {ρ : Type} (events : List (LoopEvent ρ)) : List ρ :=
  events.filterMap fun
    | .callback _ => none
    | .free r => some r

/-- A callback and its `EIO_REQ_FREE`. -/
def served {ρ : Type} (r : ρ) : List (LoopEvent ρ) := [.callback r, .free r]

section Steps

variable {ι ρ : Type}

/-- `write(loop->efd, &value, size)` -/
def EvLoopT.write (s : EvLoopT ι ρ) : EvLoopT ι ρ := { s with efd := s.efd + 1, edge := true }

/-- `ev_loop_run`: the loop thread's own steps. -/
def EvLoopT.runStep (s : EvLoopT ι ρ) : RunAction → Option (EvLoopT ι ρ)
  | .epollWait =>
    match s.loop with
    | .waiting =>
      if s.edge = true ∧ 0 < s.efd then some { s with loop := .readable, edge := false } else none
    | _ => none
  | .read =>
    match s.loop with
    | .readable => some { s with loop := .locking, efd := 0 }
    | _ => none
  | .lock =>
    match s.loop with
    | .locking => some { s with loop := .draining }
    | _ => none
  | .callback =>
    match s.loop, s.head1 with
    | .draining, r :: rest => some { s with
        head1 := rest
        loop := .calling r
        events := s.events ++ [.callback r] }
    | _, _ => none
  | .free =>
    match s.loop with
    | .calling r => some { s with loop := .draining, events := s.events ++ [.free r] }
    | _ => none
  | .unlock =>
    match s.loop, s.head1 with
    | .draining, [] => some { s with loop := .waiting }
    | _, _ => none

variable [DecidableEq ι] [Fintype ι] [DecidableEq ρ]

/-- `EV_SIGNAL(loop->lock[0])` -/
def EvLoopT.signal (s : EvLoopT ι ρ) (w : Option ι) : Option (EvLoopT ι ρ) :=
  (condSignal s.phase w).map fun phase => { s with phase := phase }

/-- The first section of worker `i` from the test of its inner loop on: wait, with a write if it is
    the last one to wait, or take the first request and signal if there are more. -/
def EvLoopT.takeOrWait (s : EvLoopT ι ρ) (i : ι) (w : Option ι) : Option (EvLoopT ι ρ) :=
  match s.head0 with
  | [] =>
    let s' := { s with
      waitThreads := s.waitThreads + 1
      phase := Function.update s.phase i .blocked }
    some (if s'.waitThreads ≥ (Fintype.card ι : Int) then s'.write else s')
  | r :: rest =>
    let s' := { s with
      head0 := rest
      phase := Function.update s.phase i (.took r)
      ledger := { s.ledger with taken := s.ledger.taken ++ [r] } }
    if rest ≠ [] then s'.signal w else some s'

/-- One step of a worker or of a thread that adds a request; a request that is added is a fresh
    one. -/
def EvLoopT.workStep (s : EvLoopT ι ρ) : EvAction ι ρ → Option (EvLoopT ι ρ)
  | .add r w =>
    if r ∈ s.ledger.submitted then none
    else
      let s' := { s with
        head0 := s.head0 ++ [r]
        ledger := { s.ledger with submitted := s.ledger.submitted ++ [r] } }
      if s.waitThreads > 0 then s'.signal w else some s'
  | .enter i w => if s.phase i = .top then s.takeOrWait i w else none
  | .wake i =>
    if s.phase i = .blocked then some { s with phase := Function.update s.phase i .woken } else none
  | .resume i w =>
    if s.phase i = .woken then { s with waitThreads := s.waitThreads - 1 }.takeOrWait i w else none
  | .call i =>
    match s.phase i with
    | .took r => some { s with
        phase := Function.update s.phase i (.working r)
        ledger := { s.ledger with called := s.ledger.called ++ [r] } }
    | _ => none
  | .ret i =>
    match s.phase i with
    | .working r => some { s with
        phase := Function.update s.phase i (.worked r)
        ledger := { s.ledger with returned := s.ledger.returned ++ [r] } }
    | _ => none
  | .append i =>
    match s.phase i with
    | .worked r =>
      -- `lock[1]` has to be free
      if s.loop.holdsLock then none
      else some { s with
        head1 := s.head1 ++ [r]
        phase := Function.update s.phase i .top
        ledger := { s.ledger with appended := s.ledger.appended ++ [r] } }.write
    | _ => none

def EvLoopT.step (s : EvLoopT ι ρ) : EvLoopAction ι ρ → Option (EvLoopT ι ρ)
  | .work a => s.workStep a
  | .run a => s.runStep a

/-- The loop as `ev_loop_init` leaves it, in front of `epoll_wait`. -/
def eventLoop (ι ρ : Type) [DecidableEq ι] [Fintype ι] [DecidableEq ρ] :
    System (EvLoopT ι ρ) (EvLoopAction ι ρ) where
  init := ⟨[], [], 0, 0, false, fun _ => .top, .waiting, .empty, []⟩
  step := EvLoopT.step

end Steps

/-! ## What a step can do -/

theorem EvLoopT.runStep_cases {ι ρ : Type} {s s' : EvLoopT ι ρ} {a : RunAction}
    (h : s.runStep a = some s') :
    (s.loop = .waiting ∧ s' = { s with loop := .readable, edge := false }) ∨
    (s.loop = .readable ∧ s' = { s with loop := .locking, efd := 0 }) ∨
    (s.loop = .locking ∧ s' = { s with loop := .draining }) ∨
    (∃ r rest, s.loop = .draining ∧ s.head1 = r :: rest ∧ s' = { s with
      head1 := rest
      loop := .calling r
      events := s.events ++ [.callback r] }) ∨
    (∃ r, s.loop = .calling r ∧
      s' = { s with loop := .draining, events := s.events ++ [.free r] }) ∨
    (s.loop = .draining ∧ s.head1 = [] ∧ s' = { s with loop := .waiting }) := by
  cases a with
  | epollWait =>
      simp only [EvLoopT.runStep] at h
      split at h
      · next hloop =>
          split at h
          · cases h
            exact Or.inl ⟨hloop, rfl⟩
          · cases h
      · cases h
  | read =>
      simp only [EvLoopT.runStep] at h
      split at h
      · next hloop =>
          cases h
          exact Or.inr (Or.inl ⟨hloop, rfl⟩)
      · cases h
  | lock =>
      simp only [EvLoopT.runStep] at h
      split at h
      · next hloop =>
          cases h
          exact Or.inr (Or.inr (Or.inl ⟨hloop, rfl⟩))
      · cases h
  | callback =>
      simp only [EvLoopT.runStep] at h
      split at h
      · next r rest hloop hhead =>
          cases h
          exact Or.inr (Or.inr (Or.inr (Or.inl ⟨r, rest, hloop, hhead, rfl⟩)))
      · cases h
  | free =>
      simp only [EvLoopT.runStep] at h
      split at h
      · next r hloop =>
          cases h
          exact Or.inr (Or.inr (Or.inr (Or.inr (Or.inl ⟨r, hloop, rfl⟩))))
      · cases h
  | unlock =>
      simp only [EvLoopT.runStep] at h
      split at h
      · next hloop hhead =>
          cases h
          exact Or.inr (Or.inr (Or.inr (Or.inr (Or.inr ⟨hloop, hhead, rfl⟩))))
      · cases h

section Workers

variable {ι ρ : Type} [DecidableEq ι] [Fintype ι] [DecidableEq ρ]

theorem EvLoopT.signal_eq {s s' : EvLoopT ι ρ} {w : Option ι} (h : s.signal w = some s') :
    ∃ phase, condSignal s.phase w = some phase ∧ s' = { s with phase := phase } := by
  obtain ⟨phase, hphase, rfl⟩ := Option.map_eq_some_iff.1 h
  exact ⟨phase, hphase, rfl⟩

/-- The first section either blocks the worker on an empty list, perhaps with a write, or takes the
    first request and leaves the phases as they are or signalled. -/
theorem EvLoopT.takeOrWait_cases {s s' : EvLoopT ι ρ} {i : ι} {w : Option ι}
    (h : s.takeOrWait i w = some s') :
    (∃ t : EvLoopT ι ρ, s.head0 = [] ∧ t = { s with
        waitThreads := s.waitThreads + 1
        phase := Function.update s.phase i .blocked } ∧ (s' = t ∨ s' = t.write)) ∨
    ∃ r rest phase, s.head0 = r :: rest ∧
      (phase = Function.update s.phase i (.took r) ∨
        condSignal (Function.update s.phase i (.took r)) w = some phase) ∧
      s' = { s with
        head0 := rest
        phase := phase
        ledger := { s.ledger with taken := s.ledger.taken ++ [r] } } := by
  simp only [EvLoopT.takeOrWait] at h
  split at h
  · next hhead =>
      refine Or.inl ⟨_, hhead, rfl, ?_⟩
      split at h
      · cases h
        exact Or.inr rfl
      · cases h
        exact Or.inl rfl
  · next r rest hhead =>
      refine Or.inr ⟨r, rest, ?_⟩
      split at h
      · obtain ⟨phase, hphase, rfl⟩ := EvLoopT.signal_eq h
        exact ⟨phase, hhead, Or.inr hphase, rfl⟩
      · cases h
        exact ⟨_, hhead, Or.inl rfl, rfl⟩

/-- What a worker or an adding thread can do: each action with its guard and the state it leaves. -/
theorem EvLoopT.workStep_cases {s s' : EvLoopT ι ρ} {a : EvAction ι ρ} (h : s.workStep a = some s') :
    (∃ r w phase, a = .add r w ∧ r ∉ s.ledger.submitted ∧
      (phase = s.phase ∧ s.waitThreads ≤ 0 ∨
        0 < s.waitThreads ∧ condSignal s.phase w = some phase) ∧
      s' = { s with
        head0 := s.head0 ++ [r]
        phase := phase
        ledger := { s.ledger with submitted := s.ledger.submitted ++ [r] } }) ∨
    (∃ i w, a = .enter i w ∧ s.phase i = .top ∧ s.takeOrWait i w = some s') ∨
    (∃ i, a = .wake i ∧ s.phase i = .blocked ∧
      s' = { s with phase := Function.update s.phase i .woken }) ∨
    (∃ i w, a = .resume i w ∧ s.phase i = .woken ∧
      EvLoopT.takeOrWait { s with waitThreads := s.waitThreads - 1 } i w = some s') ∨
    (∃ i r, a = .call i ∧ s.phase i = .took r ∧ s' = { s with
      phase := Function.update s.phase i (.working r)
      ledger := { s.ledger with called := s.ledger.called ++ [r] } }) ∨
    (∃ i r, a = .ret i ∧ s.phase i = .working r ∧ s' = { s with
      phase := Function.update s.phase i (.worked r)
      ledger := { s.ledger with returned := s.ledger.returned ++ [r] } }) ∨
    ∃ i r, a = .append i ∧ s.phase i = .worked r ∧ s.loop.holdsLock = false ∧
      s' = EvLoopT.write { s with
        head1 := s.head1 ++ [r]
        phase := Function.update s.phase i .top
        ledger := { s.ledger with appended := s.ledger.appended ++ [r] } } := by
  cases a with
  | add r w =>
      refine Or.inl ?_
      simp only [EvLoopT.workStep] at h
      split at h
      · cases h
      · next hfresh =>
          split at h
          · next hwait =>
              obtain ⟨phase, hphase, rfl⟩ := EvLoopT.signal_eq h
              exact ⟨r, w, phase, rfl, hfresh, Or.inr ⟨hwait, hphase⟩, rfl⟩
          · next hwait =>
              cases h
              exact ⟨r, w, s.phase, rfl, hfresh, Or.inl ⟨rfl, not_lt.1 hwait⟩, rfl⟩
  | enter i w =>
      refine Or.inr (Or.inl ?_)
      simp only [EvLoopT.workStep] at h
      split at h
      · next hi => exact ⟨i, w, rfl, hi, h⟩
      · cases h
  | wake i =>
      refine Or.inr (Or.inr (Or.inl ?_))
      simp only [EvLoopT.workStep] at h
      split at h
      · next hi =>
          cases h
          exact ⟨i, rfl, hi, rfl⟩
      · cases h
  | resume i w =>
      refine Or.inr (Or.inr (Or.inr (Or.inl ?_)))
      simp only [EvLoopT.workStep] at h
      split at h
      · next hi => exact ⟨i, w, rfl, hi, h⟩
      · cases h
  | call i =>
      refine Or.inr (Or.inr (Or.inr (Or.inr (Or.inl ?_))))
      simp only [EvLoopT.workStep] at h
      split at h
      · next r hi =>
          cases h
          exact ⟨i, r, rfl, hi, rfl⟩
      · cases h
  | ret i =>
      refine Or.inr (Or.inr (Or.inr (Or.inr (Or.inr (Or.inl ?_)))))
      simp only [EvLoopT.workStep] at h
      split at h
      · next r hi =>
          cases h
          exact ⟨i, r, rfl, hi, rfl⟩
      · cases h
  | append i =>
      refine Or.inr (Or.inr (Or.inr (Or.inr (Or.inr (Or.inr ?_)))))
      simp only [EvLoopT.workStep] at h
      split at h
      · next r hi =>
          split at h
          · cases h
          · next hlock =>
              cases h
              exact ⟨i, r, rfl, hi, Bool.eq_false_of_not_eq_true hlock, rfl⟩
      · cases h

/-! ## The loop as a pool -/

/-- The loop seen through the workers' hands. -/
def EvLoopT.pool (s : EvLoopT ι ρ) : Pool ι ρ := ⟨s.head0, hands s.phase, s.ledger⟩

theorem EvLoopT.pool_takeOrWait {s s' : EvLoopT ι ρ} {i : ι} {w : Option ι}
    (hi : (s.phase i).hand = .free) (h : s.takeOrWait i w = some s') :
    s'.pool = s.pool ∨ s.pool.step (.take i) = some s'.pool := by
  rcases EvLoopT.takeOrWait_cases h with ⟨t, _, rfl, rfl | rfl⟩ |
    ⟨r, rest, phase, hhead, hphase, rfl⟩
  · exact Or.inl (by simp only [EvLoopT.pool, hands_update_free hi (p := .blocked) rfl])
  · exact Or.inl (by
      simp only [EvLoopT.pool, EvLoopT.write, hands_update_free hi (p := .blocked) rfl])
  · have hhands : hands phase = hands (Function.update s.phase i (.took r)) := by
      rcases hphase with rfl | hsignal
      · rfl
      · exact hands_condSignal hsignal
    refine Or.inr ?_
    simp only [EvLoopT.pool, hhead, hhands]
    exact pool_take hi rest s.ledger

/-- **Refinement.** The loop thread's own steps are not seen. -/
theorem eventLoop_refines : Refines (eventLoop ι ρ) (system ι ρ) EvLoopT.pool where
  init := rfl
  step := by
    intro s a s' _ h
    simp only [eventLoop] at h
    cases a with
    | run a =>
        refine Or.inl ?_
        rcases EvLoopT.runStep_cases h with ⟨_, rfl⟩ | ⟨_, rfl⟩ | ⟨_, rfl⟩ | ⟨_, _, _, _, rfl⟩ |
          ⟨_, _, rfl⟩ | ⟨_, _, rfl⟩ <;> rfl
    | work a =>
        rcases EvLoopT.workStep_cases h with ⟨r, w, phase, rfl, hfresh, hphase, rfl⟩ |
          ⟨i, w, rfl, hi, h⟩ | ⟨i, rfl, hi, rfl⟩ | ⟨i, w, rfl, hi, h⟩ | ⟨i, r, rfl, hi, rfl⟩ |
          ⟨i, r, rfl, hi, rfl⟩ | ⟨i, r, rfl, hi, _, rfl⟩
        · have hhands : hands phase = hands s.phase := by
            rcases hphase with ⟨rfl, _⟩ | ⟨_, hsignal⟩
            · rfl
            · exact hands_condSignal hsignal
          exact Or.inr ⟨.submit r, by
            simp only [EvLoopT.pool, system, Pool.step, if_neg hfresh, hhands]⟩
        · exact (EvLoopT.pool_takeOrWait (by rw [hi]; rfl) h).imp_right fun hstep =>
            ⟨.take i, hstep⟩
        · have hfree : (s.phase i).hand = .free := by rw [hi]; rfl
          exact Or.inl (by simp only [EvLoopT.pool, hands_update_free hfree (p := .woken) rfl])
        · have hfree : (s.phase i).hand = .free := by rw [hi]; rfl
          exact (EvLoopT.pool_takeOrWait (s := { s with waitThreads := s.waitThreads - 1 })
            hfree h).imp_right fun hstep => ⟨.take i, hstep⟩
        · exact Or.inr ⟨.call i, pool_call hi _ _⟩
        · exact Or.inr ⟨.ret i, pool_ret hi _ _⟩
        · exact Or.inr ⟨.append i, pool_append hi _ _⟩

end Workers

/-! ## Delivery -/

section Delivery

variable {ι ρ : Type}

theorem callbacks_concat (events : List (LoopEvent ρ)) (e : LoopEvent ρ) :
    callbacks (events ++ [e]) = callbacks events ++ callbacks [e] := List.filterMap_append

theorem frees_concat (events : List (LoopEvent ρ)) (e : LoopEvent ρ) :
    frees (events ++ [e]) = frees events ++ frees [e] := List.filterMap_append

/-- What a step of a worker leaves and adds on the loop thread's side: a write raises an edge, and
    nothing is appended without a write. -/
structure EvLoopT.Notifies (s s' : EvLoopT ι ρ) : Prop where
  events_eq : s'.events = s.events
  loop_eq : s'.loop = s.loop
  appended_eq : ∃ l, s'.head1 = s.head1 ++ l ∧ s'.ledger.appended = s.ledger.appended ++ l ∧
    (l = [] ∨ s'.edge = true ∧ 0 < s'.efd)
  edge_or : s.edge = true ∧ 0 < s.efd → s'.edge = true ∧ 0 < s'.efd

theorem EvLoopT.Notifies.refl {s s' : EvLoopT ι ρ} (hevents : s'.events = s.events)
    (hloop : s'.loop = s.loop) (hhead : s'.head1 = s.head1)
    (happended : s'.ledger.appended = s.ledger.appended) (hedge : s'.edge = s.edge)
    (hefd : s'.efd = s.efd) : s.Notifies s' :=
  ⟨hevents, hloop, ⟨[], by rw [hhead, List.append_nil], by rw [happended, List.append_nil],
    Or.inl rfl⟩, by rw [hedge, hefd]; exact id⟩

/-- What was appended is what was called back and what still is in `head[1]`; each callback but a
    running one is followed by its free; and the loop thread does not wait on a non-empty `head[1]`
    without an edge. -/
structure EvLoopT.Delivery (s : EvLoopT ι ρ) : Prop where
  appended_eq : s.ledger.appended = callbacks s.events ++ s.head1
  events_eq : s.events = (frees s.events).flatMap served ++ s.loop.inCall
  notified : s.loop = .waiting → s.head1 ≠ [] → s.edge = true ∧ 0 < s.efd

theorem EvLoopT.Delivery.runStep {s s' : EvLoopT ι ρ} {a : RunAction} (h : s.Delivery)
    (hstep : s.runStep a = some s') : s'.Delivery := by
  have happended := h.appended_eq
  have hevents := h.events_eq
  rcases EvLoopT.runStep_cases hstep with ⟨hloop, rfl⟩ | ⟨hloop, rfl⟩ | ⟨hloop, rfl⟩ |
    ⟨r, rest, hloop, hhead, rfl⟩ | ⟨r, hloop, rfl⟩ | ⟨hloop, hhead, rfl⟩
  · rw [hloop] at hevents
    exact ⟨happended, hevents, by simp⟩
  · rw [hloop] at hevents
    exact ⟨happended, hevents, by simp⟩
  · rw [hloop] at hevents
    exact ⟨happended, hevents, by simp⟩
  · -- the head of the list is called back
    rw [hloop] at hevents
    refine ⟨?_, ?_, by simp⟩
    · simp only
      rw [happended, hhead, callbacks_concat, List.append_assoc]
      rfl
    · simp only
      rw [frees_concat]
      conv_lhs => rw [hevents]
      simp [LoopPhase.inCall, frees]
  · -- and then freed
    rw [hloop] at hevents
    refine ⟨?_, ?_, by simp⟩
    · simp only
      rw [happended, callbacks_concat]
      simp [callbacks]
    · simp only
      rw [frees_concat]
      conv_lhs => rw [hevents]
      simp [LoopPhase.inCall, frees, served]
  · rw [hloop] at hevents
    exact ⟨happended, hevents, fun _ hne => absurd hhead hne⟩

variable [DecidableEq ι] [Fintype ι] [DecidableEq ρ]

theorem EvLoopT.notifies_takeOrWait {s s' : EvLoopT ι ρ} {i : ι} {w : Option ι}
    (h : s.takeOrWait i w = some s') : s.Notifies s' := by
  rcases EvLoopT.takeOrWait_cases h with ⟨t, _, rfl, rfl | rfl⟩ | ⟨r, rest, phase, _, _, rfl⟩
  · exact .refl rfl rfl rfl rfl rfl rfl
  · exact ⟨rfl, rfl, ⟨[], (List.append_nil _).symm, (List.append_nil _).symm, Or.inl rfl⟩,
      fun _ => ⟨rfl, Nat.succ_pos _⟩⟩
  · exact .refl rfl rfl rfl rfl rfl rfl

theorem EvLoopT.notifies_workStep {s s' : EvLoopT ι ρ} {a : EvAction ι ρ}
    (h : s.workStep a = some s') : s.Notifies s' := by
  rcases EvLoopT.workStep_cases h with ⟨r, w, phase, rfl, _, _, rfl⟩ | ⟨i, w, rfl, _, h⟩ |
    ⟨i, rfl, _, rfl⟩ | ⟨i, w, rfl, _, h⟩ | ⟨i, r, rfl, _, rfl⟩ | ⟨i, r, rfl, _, rfl⟩ |
    ⟨i, r, rfl, _, _, rfl⟩
  · exact .refl rfl rfl rfl rfl rfl rfl
  · exact EvLoopT.notifies_takeOrWait h
  · exact .refl rfl rfl rfl rfl rfl rfl
  · have hnotifies := EvLoopT.notifies_takeOrWait h
    exact ⟨hnotifies.events_eq, hnotifies.loop_eq, hnotifies.appended_eq, hnotifies.edge_or⟩
  · exact .refl rfl rfl rfl rfl rfl rfl
  · exact .refl rfl rfl rfl rfl rfl rfl
  · exact ⟨rfl, rfl, ⟨[r], rfl, rfl, Or.inr ⟨rfl, Nat.succ_pos _⟩⟩, fun _ => ⟨rfl, Nat.succ_pos _⟩⟩

theorem EvLoopT.Delivery.workStep {s s' : EvLoopT ι ρ} {a : EvAction ι ρ} (h : s.Delivery)
    (hstep : s.workStep a = some s') : s'.Delivery := by
  have hnotifies := EvLoopT.notifies_workStep hstep
  obtain ⟨l, hhead, happended, hwrite⟩ := hnotifies.appended_eq
  refine ⟨?_, ?_, fun hloop hne => ?_⟩
  · rw [happended, h.appended_eq, hnotifies.events_eq, hhead, List.append_assoc]
  · rw [hnotifies.events_eq, hnotifies.loop_eq]
    exact h.events_eq
  · rcases hwrite with rfl | hwrite
    · rw [hnotifies.loop_eq] at hloop
      rw [hhead, List.append_nil] at hne
      exact hnotifies.edge_or (h.notified hloop hne)
    · exact hwrite

theorem EvLoopT.Delivery.of_reachable {s : EvLoopT ι ρ} (hs : Reachable (eventLoop ι ρ) s) :
    s.Delivery := by
  refine hs.invariant _ ⟨rfl, rfl, fun _ hne => absurd rfl hne⟩ fun s a s' h hstep => ?_
  cases a with
  | work a => exact h.workStep hstep
  | run a => exact h.runStep hstep

/-- In every reachable state the callbacks that ran are, once each, the first requests that were
    appended, work has returned from each of them and from each request that is yet to be called
    back, each callback is followed by its one free, and the loop thread does not hang in
    `epoll_wait` while `head[1]` has a request. -/
theorem eventLoop_delivery {s : EvLoopT ι ρ} (hs : Reachable (eventLoop ι ρ) s) :
    (callbacks s.events).Nodup ∧
    (∀ r ∈ callbacks s.events ++ s.head1, r ∈ s.ledger.returned) ∧
    callbacks s.events <+: s.ledger.appended ∧
    s.events = (frees s.events).flatMap served ++ s.loop.inCall ∧
    ¬ (s.loop = .waiting ∧ s.head1 ≠ [] ∧ s.step (.run .epollWait) = none) := by
  have hpool : s.pool.Inv := Pool.Inv.of_reachable (eventLoop_refines.reachable hs)
  have hdelivery := EvLoopT.Delivery.of_reachable hs
  have hpre : callbacks s.events <+: s.ledger.appended := ⟨s.head1, hdelivery.appended_eq.symm⟩
  refine ⟨hpool.appended_nodup.sublist hpre.sublist, fun r hr => ?_, hpre,
    hdelivery.events_eq, ?_⟩
  · rw [← hdelivery.appended_eq] at hr
    exact hpool.appended_returned hr
  · rintro ⟨hloop, hne, hnone⟩
    have hedge := hdelivery.notified hloop hne
    simp [EvLoopT.step, EvLoopT.runStep, hloop, hedge] at hnone

theorem eventLoop_delivery_one : ∃ s, Reachable (eventLoop (Fin 1) Nat) s ∧
    s.loop = .waiting ∧ s.events = [.callback 7, .free 7] ∧
    callbacks s.events <+: s.ledger.appended := by
  have hs := Reachable.init.run (show (eventLoop (Fin 1) Nat).run (eventLoop (Fin 1) Nat).init
    [.work (.enter 0 none), .work (.add 7 (some 0)), .work (.resume 0 none), .work (.call 0),
      .work (.ret 0), .work (.append 0), .run .epollWait, .run .read, .run .lock, .run .callback,
      .run .free, .run .unlock] = some _ from rfl)
  exact ⟨_, hs, rfl, rfl, (eventLoop_delivery hs).2.2.1⟩

end Delivery

/-! ## Quiet steps -/

/-- A step that neither adds, nor works on, nor frees a request. -/
def EvLoopAction.quiet {ι ρ : Type} : EvLoopAction ι ρ → Bool
  | .work (.add _ _) => false
  | .work (.call _) => false
  | .run .free => false
  | _ => true

section Histories

variable {ι ρ : Type} [DecidableEq ι] [Fintype ι] [DecidableEq ρ]

theorem EvLoopT.takeOrWait_ledger {s s' : EvLoopT ι ρ} {i : ι} {w : Option ι}
    (h : s.takeOrWait i w = some s') :
    s'.ledger.submitted = s.ledger.submitted ∧ s'.ledger.called = s.ledger.called := by
  rcases EvLoopT.takeOrWait_cases h with ⟨t, _, rfl, rfl | rfl⟩ | ⟨r, rest, phase, _, _, rfl⟩
  · exact ⟨rfl, rfl⟩
  · exact ⟨rfl, rfl⟩
  · exact ⟨rfl, rfl⟩

/-- A quiet step of a worker submits and calls nothing. -/
theorem EvLoopT.workStep_quiet {s s' : EvLoopT ι ρ} {a : EvAction ι ρ}
    (hquiet : (EvLoopAction.work a).quiet = true) (h : s.workStep a = some s') :
    s'.ledger.submitted = s.ledger.submitted ∧ s'.ledger.called = s.ledger.called := by
  rcases EvLoopT.workStep_cases h with ⟨r, w, phase, rfl, _, _, rfl⟩ | ⟨i, w, rfl, _, h⟩ |
    ⟨i, rfl, _, rfl⟩ | ⟨i, w, rfl, _, h⟩ | ⟨i, r, rfl, _, rfl⟩ | ⟨i, r, rfl, _, rfl⟩ |
    ⟨i, r, rfl, _, _, rfl⟩
  · cases hquiet
  · exact EvLoopT.takeOrWait_ledger h
  · exact ⟨rfl, rfl⟩
  · exact (EvLoopT.takeOrWait_ledger h).imp id id
  · cases hquiet
  · exact ⟨rfl, rfl⟩
  · exact ⟨rfl, rfl⟩

/-- A quiet step submits, calls and frees nothing. -/
theorem EvLoopT.step_quiet {s s' : EvLoopT ι ρ} {a : EvLoopAction ι ρ} (hquiet : a.quiet = true)
    (h : s.step a = some s') :
    s'.ledger.submitted = s.ledger.submitted ∧ s'.ledger.called = s.ledger.called ∧
      frees s'.events = frees s.events := by
  cases a with
  | run a =>
      rcases EvLoopT.runStep_cases h with ⟨_, rfl⟩ | ⟨_, rfl⟩ | ⟨_, rfl⟩ | ⟨r, rest, _, _, rfl⟩ |
        ⟨r, hloop, rfl⟩ | ⟨_, _, rfl⟩
      · exact ⟨rfl, rfl, rfl⟩
      · exact ⟨rfl, rfl, rfl⟩
      · exact ⟨rfl, rfl, rfl⟩
      · exact ⟨rfl, rfl, by rw [frees_concat]; exact List.append_nil _⟩
      · -- only `EIO_REQ_FREE` leaves this phase
        cases a with
        | free => cases hquiet
        | _ => simp [EvLoopT.step, EvLoopT.runStep, hloop] at h
      · exact ⟨rfl, rfl, rfl⟩
  | work a =>
      obtain ⟨hsubmitted, hcalled⟩ := EvLoopT.workStep_quiet hquiet h
      exact ⟨hsubmitted, hcalled, by rw [(EvLoopT.notifies_workStep h).events_eq]⟩

/-- `EV_REQ_ADD` submits a fresh request. -/
theorem EvLoopT.step_add {s s' : EvLoopT ι ρ} {r : ρ} {w : Option ι}
    (h : s.step (.work (.add r w)) = some s') :
    r ∉ s.ledger.submitted ∧ s'.ledger.submitted = s.ledger.submitted ++ [r] ∧
      s'.ledger.called = s.ledger.called ∧ frees s'.events = frees s.events := by
  replace h : s.workStep (.add r w) = some s' := h
  have hevents := (EvLoopT.notifies_workStep h).events_eq
  rcases EvLoopT.workStep_cases h with ⟨q, v, phase, ha, hfresh, _, rfl⟩ | ⟨_, _, ha, _⟩ |
    ⟨_, ha, _⟩ | ⟨_, _, ha, _⟩ | ⟨_, _, ha, _⟩ | ⟨_, _, ha, _⟩ | ⟨_, _, ha, _⟩ <;> cases ha
  exact ⟨hfresh, rfl, rfl, by rw [hevents]⟩

theorem EvLoopT.step_call {s s' : EvLoopT ι ρ} {i : ι} {r : ρ} (hi : s.phase i = .took r)
    (h : s.step (.work (.call i)) = some s') :
    s'.ledger.submitted = s.ledger.submitted ∧ s'.ledger.called = s.ledger.called ++ [r] ∧
      s'.events = s.events := by
  simp only [EvLoopT.step, EvLoopT.workStep, hi] at h
  cases h
  exact ⟨rfl, rfl, rfl⟩

omit [DecidableEq ι] [Fintype ι] [DecidableEq ρ] in
theorem EvLoopT.step_free {s s' : EvLoopT ι ρ} {r : ρ} (hloop : s.loop = .calling r)
    (h : s.runStep .free = some s') :
    s'.ledger = s.ledger ∧ frees s'.events = frees s.events ++ [r] := by
  simp only [EvLoopT.runStep, hloop] at h
  cases h
  exact ⟨rfl, frees_concat _ _⟩

/-! ### Where a request can be -/

theorem took_submitted {s : EvLoopT ι ρ} (hs : Reachable (eventLoop ι ρ) s) {i : ι} {r : ρ}
    (hi : s.phase i = .took r) : r ∈ s.ledger.submitted := by
  have hpool : s.pool.Inv := Pool.Inv.of_reachable (eventLoop_refines.reachable hs)
  exact hpool.held_submitted (i := i)
    (by simp [EvLoopT.pool, hands, hi, EvPhase.hand, Hand.holds])

theorem called_submitted {s : EvLoopT ι ρ} (hs : Reachable (eventLoop ι ρ) s) {r : ρ}
    (hr : r ∈ s.ledger.called) : r ∈ s.ledger.submitted := by
  have hpool : s.pool.Inv := Pool.Inv.of_reachable (eventLoop_refines.reachable hs)
  exact hpool.called_submitted hr

/-- Work that is about to be called was not called before. -/
theorem took_not_called {s s' : EvLoopT ι ρ} (hs : Reachable (eventLoop ι ρ) s) {i : ι} {r : ρ}
    (hi : s.phase i = .took r) (h : s.step (.work (.call i)) = some s') :
    r ∉ s.ledger.called := by
  have hs' : Reachable (eventLoop ι ρ) s' := hs.step (.work (.call i)) h
  have hpool : s'.pool.Inv := Pool.Inv.of_reachable (eventLoop_refines.reachable hs')
  have hone : s'.ledger.called.count r ≤ 1 := hpool.called_le_one r
  rw [(EvLoopT.step_call hi h).2.1, List.count_append, List.count_singleton_self] at hone
  exact List.count_eq_zero.1 (by omega)

theorem submitted_nodup {s : EvLoopT ι ρ} (hs : Reachable (eventLoop ι ρ) s) :
    s.ledger.submitted.Nodup := by
  have hpool : s.pool.Inv := Pool.Inv.of_reachable (eventLoop_refines.reachable hs)
  exact hpool.nodup

/-- Work on a request is called before its callback. -/
theorem callbacks_called {s : EvLoopT ι ρ} (hs : Reachable (eventLoop ι ρ) s) {r : ρ}
    (hr : r ∈ callbacks s.events) : r ∈ s.ledger.called := by
  have hpool : s.pool.Inv := Pool.Inv.of_reachable (eventLoop_refines.reachable hs)
  refine hpool.appended_called (?_ : r ∈ s.ledger.appended)
  rw [(EvLoopT.Delivery.of_reachable hs).appended_eq]
  exact List.mem_append_left _ hr

omit [DecidableEq ι] [Fintype ι] [DecidableEq ρ] in
theorem callbacks_served (l : List ρ) : callbacks (l.flatMap served) = l := by
  induction l with
  | nil => rfl
  | cons r l ih =>
      rw [List.flatMap_cons, callbacks, List.filterMap_append, ← callbacks, ← callbacks, ih]
      rfl

/-- What was called back is what was freed, and what the loop thread is at. -/
theorem callbacks_eq {s : EvLoopT ι ρ} (hs : Reachable (eventLoop ι ρ) s) :
    callbacks s.events = frees s.events ++ callbacks s.loop.inCall := by
  conv_lhs => rw [(EvLoopT.Delivery.of_reachable hs).events_eq]
  rw [callbacks, List.filterMap_append, ← callbacks, ← callbacks, callbacks_served]

/-- A request whose callback is running was not freed. -/
theorem calling_not_freed {s : EvLoopT ι ρ} (hs : Reachable (eventLoop ι ρ) s) {r : ρ}
    (hloop : s.loop = .calling r) : r ∈ callbacks s.events ∧ r ∉ frees s.events := by
  have hpool : s.pool.Inv := Pool.Inv.of_reachable (eventLoop_refines.reachable hs)
  have heq := callbacks_eq hs
  rw [hloop] at heq
  have hnodup : (callbacks s.events).Nodup := by
    have happended := hpool.appended_nodup
    rw [show s.pool.ledger.appended = _ from (EvLoopT.Delivery.of_reachable hs).appended_eq]
      at happended
    exact happended.of_append_left
  have hlast : callbacks (LoopPhase.calling r).inCall = [r] := rfl
  rw [hlast] at heq
  rw [heq] at hnodup ⊢
  exact ⟨by simp, fun hmem => List.disjoint_of_nodup_append hnodup hmem (by simp)⟩

end Histories

end Ryze
