import Ryze.Ev.ThreadPoolOrderly
import Ryze.Lib.Population
import Ryze.Lib.Progress

set_option autoImplicit false

/-! # The pool comes to rest

In orderly runs nobody waits for a mutex for ever: the threads stop by themselves, and then the pool
is destroyed. -/

namespace Ryze

open Mutexes Population Transition

section Settling

variable {ι κ τ : Type} [DecidableEq ι] [DecidableEq κ]

/-! ## The potential -/

/-- How far a worker is from its end or its wait; a task sends it round its loop once more. -/
def TaskPhase.weight : TaskPhase τ → Nat
  | .exited => 0
  | .exiting => 1
  | .tested => 2
  | .woken => 3
  | .blocked => 7
  | .locked => 8
  | .top => 9
  | .running _ => 10

def EvThreadInfo.weight (info : EvThreadInfo ι κ τ) : Nat :=
  info.phase.weight + 9 * info.tasks.length

def AddPhase.weight : AddPhase ι τ → Nat
  | .out => 0
  | .added _ => 1
  | .locked _ _ => 11
  | .called _ _ => 12

/-- How far the destroyer is from its end, where its second loop has to look again at a thread that
    it neither frees nor wakes. -/
def DestroyPhase.weight (order : List ι) (infos : ι → EvThreadInfo ι κ τ) : DestroyPhase ι → Nat
  | .out => 5 * order.length + 3
  | .sweep rest => 3 * rest.length + 2 * order.length + 2
  | .sweeping _ rest => 3 * rest.length + 2 * order.length + 4
  | .swept _ rest => 3 * rest.length + 2 * order.length + 3
  | .reap rest => 2 * rest.length + 1
  | .reaping i rest => 2 * rest.length + if (infos i).isUseful then 2 else 5
  | .reaped i rest => 2 * rest.length + if (infos i).phase.isBlocked then 1 else 4
  | .done => 0

namespace EvThreadInfo

omit [DecidableEq ι] [DecidableEq κ]

variable {info x : EvThreadInfo ι κ τ}

/-- A worker's step brings it nearer, and it was not blocked. -/
theorem workerStep_weight {i : ι} (hsound : info.Sound i) (h : info.workerStep i = some x) :
    x.weight + 1 ≤ info.weight ∧ info.phase.isBlocked = false := by
  have hcause := hsound.tested_cause
  unfold EvThreadInfo.workerStep at h
  split at h
  · next hphase =>
      obtain ⟨y, hy, rfl⟩ := Option.map_eq_some_iff.1 h
      obtain ⟨_, rfl⟩ := EvThreadInfo.lock_eq_some hy
      simp only [EvThreadInfo.weight, hphase, TaskPhase.weight]
      exact ⟨by omega, rfl⟩
  · next hphase =>
      split at h <;>
        · cases h
          simp only [EvThreadInfo.weight, hphase, TaskPhase.weight]
          exact ⟨by omega, rfl⟩
  · cases h
  · next hphase =>
      obtain ⟨y, hy, rfl⟩ := Option.map_eq_some_iff.1 h
      obtain ⟨_, rfl⟩ := EvThreadInfo.lock_eq_some hy
      simp only [EvThreadInfo.weight, hphase, TaskPhase.weight]
      exact ⟨by omega, rfl⟩
  · next hphase =>
      split at h
      · next htasks =>
          split at h
          · next hstatus =>
              -- the `continue` would send it round for nothing
              exact absurd (hcause hphase) (by simp [htasks, hstatus])
          · cases h
            simp only [EvThreadInfo.weight, hphase, TaskPhase.weight]
            exact ⟨by omega, rfl⟩
      · next htasks =>
          cases h
          simp only [EvThreadInfo.weight, hphase, htasks, TaskPhase.weight, List.length_cons]
          exact ⟨by omega, rfl⟩
  · next hphase =>
      cases h
      simp only [EvThreadInfo.weight, hphase, TaskPhase.weight]
      exact ⟨by omega, rfl⟩
  · next hphase =>
      cases h
      simp only [EvThreadInfo.weight, hphase, TaskPhase.weight]
      exact ⟨by omega, rfl⟩
  · cases h

/-- A signal that wakes somebody pays for another look of the destroyer. -/
theorem signal_weight (info : EvThreadInfo ι κ τ) :
    (info.phase.isBlocked = true ∧ info.signal.weight + 4 = info.weight) ∨
      (info.phase.isBlocked = false ∧ info.signal = info) := by
  rcases info.signal_cases with ⟨hphase, heq⟩ | ⟨hne, heq⟩
  · rw [heq]
    simp only [EvThreadInfo.weight, hphase, TaskPhase.weight]
    exact Or.inl ⟨rfl, by omega⟩
  · refine Or.inr ⟨?_, heq⟩
    cases hphase : info.phase with
    | blocked => exact absurd hphase hne
    | _ => rfl

theorem signal_notBlocked (info : EvThreadInfo ι κ τ) : info.signal.phase.isBlocked = false := by
  rcases info.signal_weight with ⟨hblocked, _⟩ | ⟨hblocked, heq⟩
  · unfold EvThreadInfo.signal
    split
    · rfl
    · next hne =>
        cases hphase : info.phase with
        | blocked => exact absurd hphase hne
        | _ => rfl
  · rw [heq, hblocked]

/-- What was useful to look at still is. -/
def Steady (info x : EvThreadInfo ι κ τ) : Prop :=
  (info.phase.isBlocked = true → x.phase.isBlocked = true) ∧ (info.status = 2 → x.status = 2)

theorem Steady.isUseful (h : info.Steady x) (huseful : info.isUseful = true) :
    x.isUseful = true := by
  simp only [EvThreadInfo.isUseful, Bool.or_eq_true, beq_iff_eq] at huseful ⊢
  exact huseful.imp h.1 h.2

/-- A status of 2 is raised no more. -/
theorem Agrees.steady {hasSwept hasFreed : Bool} (h : info.Agrees hasSwept hasFreed) {i : ι}
    (hsound : info.Sound i) (hstep : info.workerStep i = some x) : info.Steady x := by
  refine ⟨fun hblocked => ?_, fun hstatus => ?_⟩
  · rw [(workerStep_weight hsound hstep).2] at hblocked
    cases hblocked
  · rcases workerStep_keeps hstep with hkeeps | ⟨_, hphase, _⟩
    · rw [hkeeps.status_eq, hstatus]
    · have heq := h.status_eq
      have hle := Bool.toNat_le hasSwept
      rw [hphase, show (TaskPhase.tested : TaskPhase τ).isGone = false from rfl,
        Bool.toNat_false] at heq
      omega

end EvThreadInfo

namespace DestroyPhase

omit [DecidableEq κ]

variable {order : List ι} {infos : ι → EvThreadInfo ι κ τ}

theorem weight_steady (p : DestroyPhase ι) (order : List ι) {i : ι} {x : EvThreadInfo ι κ τ}
    (h : (infos i).Steady x) :
    p.weight order (Function.update infos i x) ≤ p.weight order infos := by
  have hsteady : ∀ j, (infos j).Steady (Function.update infos i x j) := by
    intro j
    by_cases hj : j = i
    · subst hj
      rwa [Function.update_self]
    · rw [Function.update_of_ne hj]
      exact ⟨id, id⟩
  cases p with
  | reaping j rest =>
      simp only [DestroyPhase.weight]
      have huseful := (hsteady j).isUseful
      split
      · split <;> omega
      · next hnot => rw [if_neg fun hold => hnot (huseful hold)]
  | reaped j rest =>
      simp only [DestroyPhase.weight]
      have hblocked := (hsteady j).1
      split
      · split <;> omega
      · next hnot => rw [if_neg fun hold => hnot (hblocked hold)]
  | _ => exact Nat.le_refl _

omit [DecidableEq ι] in
theorem weight_le_add (p : DestroyPhase ι) (order : List ι)
    (infos infos' : ι → EvThreadInfo ι κ τ) :
    p.weight order infos' ≤ p.weight order infos + 3 := by
  cases p with
  | reaping j rest =>
      simp only [DestroyPhase.weight]
      split <;> split <;> omega
  | reaped j rest =>
      simp only [DestroyPhase.weight]
      split <;> split <;> omega
  | _ => exact Nat.le_add_right _ 3

end DestroyPhase

/-- The threads go on by themselves; wake-ups without a signal and calls of `ev_task_info_add` come
    from outside. -/
def PoolAction.isOwn : PoolAction ι κ τ → Bool
  | .worker _ => true
  | .adder _ => true
  | .destroyer => true
  | _ => false

def PoolAction.price : PoolAction ι κ τ → Nat
  | .add _ _ _ => 13
  | _ => 0

omit [DecidableEq ι] [DecidableEq κ] in
/-- Only calls of `ev_task_info_add` pay. -/
theorem PoolAction.price_of_isOwn {a : PoolAction ι κ τ} (ha : a.isOwn = true) : a.price = 0 := by
  cases a with
  | worker | wake | adder | destroyer => rfl
  | add => cases ha

variable [Fintype ι] [Fintype κ]

namespace EvThreadPool

def potential (order : List ι) (s : EvThreadPool ι κ τ) : Nat :=
  total s.infos EvThreadInfo.weight + total s.adder AddPhase.weight
    + s.destroyer.weight order s.infos

variable {order : List ι} {s s' : EvThreadPool ι κ τ}

omit [DecidableEq κ] in
theorem potential_set (order : List ι) {i : ι} {x : EvThreadInfo ι κ τ}
    (hsteady : (s.infos i).Steady x) :
    (s.set i x).potential order + (s.infos i).weight ≤ s.potential order + x.weight := by
  have htotal := total_update (rfl : s.infos i = _) x EvThreadInfo.weight
  have hdestroyer := s.destroyer.weight_steady order hsteady
  simp only [potential, EvThreadPool.set]
  omega

omit [DecidableEq κ] in
theorem potential_set_le {i : ι} {x : EvThreadInfo ι κ τ} (hsteady : (s.infos i).Steady x)
    (hweight : x.weight ≤ (s.infos i).weight) :
    (s.set i x).potential order ≤ s.potential order := by
  have hset := potential_set order hsteady
  omega

omit [DecidableEq κ] in
theorem potential_lock {i : ι} {x : EvThreadInfo ι κ τ} {t : PoolThread ι κ}
    (hx : (s.infos i).lock t = some x) : (s.set i x).potential order ≤ s.potential order := by
  obtain ⟨_, rfl⟩ := EvThreadInfo.lock_eq_some hx
  exact potential_set_le ⟨id, id⟩ (Nat.le_refl _)

omit [DecidableEq κ] in
theorem potential_signal (order : List ι) (s : EvThreadPool ι κ τ) (i : ι) :
    (s.set i (s.infos i).signal).potential order + (s.infos i).phase.isBlocked.toNat
      ≤ s.potential order := by
  have htotal := total_update (rfl : s.infos i = _) (s.infos i).signal EvThreadInfo.weight
  rcases (s.infos i).signal_weight with ⟨hblocked, hweight⟩ | ⟨hblocked, heq⟩
  · have hle := s.destroyer.weight_le_add order s.infos
      (Function.update s.infos i (s.infos i).signal)
    rw [hblocked, Bool.toNat_true]
    simp only [potential, EvThreadPool.set]
    omega
  · simp only [potential, EvThreadPool.set]
    rw [heq, Function.update_eq_self, hblocked, Bool.toNat_false, Nat.add_zero]

omit [DecidableEq κ] in
theorem potential_signal_le (s : EvThreadPool ι κ τ) (i : ι) :
    (s.set i (s.infos i).signal).potential order ≤ s.potential order :=
  Nat.le_of_add_right_le (potential_signal order s i)

theorem potential_moveAdder {k : κ} {p : AddPhase ι τ} (hp : s.adder k = p) {i : ι}
    {x : EvThreadInfo ι κ τ} {q : AddPhase ι τ}
    (hq : (s.set i x).potential order + q.weight < s.potential order + p.weight) :
    ((s.set i x).moveAdder k q).potential order + 1 ≤ s.potential order := by
  have htotal := total_update hp q AddPhase.weight
  have hmove : ((s.set i x).moveAdder k q).potential order + p.weight
      = (s.set i x).potential order + q.weight := by
    simp only [potential, moveAdder, EvThreadPool.set]
    omega
  omega

omit [DecidableEq ι] [DecidableEq κ] in
theorem potential_moveDestroyer {p : DestroyPhase ι} (hp : s.destroyer = p) {q : DestroyPhase ι}
    (hq : q.weight order s.infos < p.weight order s.infos) :
    (s.moveDestroyer q).potential order + 1 ≤ s.potential order := by
  simp only [potential, moveDestroyer, hp]
  omega

omit [DecidableEq κ] in
theorem worker_lowers (h : s.Calm order) {i : ι} {x : EvThreadInfo ι κ τ}
    (hstep : (s.infos i).workerStep i = some x) :
    (s.set i x).potential order + 1 ≤ s.potential order := by
  have hweight := (EvThreadInfo.workerStep_weight (h.sound i) hstep).1
  have htotal := total_update (rfl : s.infos i = _) x EvThreadInfo.weight
  have hdestroyer := s.destroyer.weight_steady order
    ((h.reaps.agrees i).steady (h.sound i) hstep)
  simp only [potential, EvThreadPool.set]
  omega

theorem adder_lowers {k : κ} (hstep : s.adderStep k = some s') :
    s'.potential order + 1 ≤ s.potential order := by
  cases Adds.of_step hstep with
  | lock hphase hx =>
      exact potential_moveAdder hphase
        (Nat.add_lt_add_of_le_of_lt (potential_lock hx) (by simp [AddPhase.weight]))
  | @append i task hphase =>
      refine potential_moveAdder hphase ?_
      have hset := potential_set order (s := s) (i := i)
        (x := { s.infos i with tasks := (s.infos i).tasks ++ [task], mutex := none }) ⟨id, id⟩
      simp only [EvThreadInfo.weight, List.length_append, List.length_singleton] at hset
      simp only [AddPhase.weight]
      omega
  | @signal i hphase =>
      exact potential_moveAdder hphase
        (Nat.add_lt_add_of_le_of_lt (potential_signal_le s i) (by simp [AddPhase.weight]))

omit [DecidableEq κ] in
/-- Likewise after a step on `i`. -/
theorem potential_visit {p q : DestroyPhase ι} (hp : s.destroyer = p) {i : ι}
    {x : EvThreadInfo ι κ τ} (hset : (s.set i x).potential order ≤ s.potential order)
    (hq : q.weight order (s.set i x).infos < p.weight order (s.set i x).infos) :
    ((s.set i x).moveDestroyer q).potential order + 1 ≤ s.potential order :=
  (potential_moveDestroyer (show (s.set i x).destroyer = p from hp) hq).trans hset

omit [DecidableEq κ] in
theorem destroyer_lowers (h : s.Calm order) (horderly : Orderly s .destroyer)
    (hstep : s.destroyerStep order = some s') :
    s'.potential order + 1 ≤ s.potential order := by
  cases Destroys.of_step hstep with
  | start hphase =>
      refine potential_moveDestroyer hphase ?_
      simp only [DestroyPhase.weight]
      omega
  | turn hphase | finish hphase =>
      refine potential_moveDestroyer hphase ?_
      simp only [DestroyPhase.weight, List.length_nil]
      omega
  | lock hphase hx =>
      refine potential_visit hphase (potential_lock hx) ?_
      simp only [DestroyPhase.weight, List.length_cons]
      omega
  | @drop i rest hphase =>
      -- the worker cannot have left before its status was raised
      have hzero : (s.infos i).status = 0 := by
        have hagrees := h.reaps.agrees i
        rw [hphase, show (DestroyPhase.sweeping i rest).hasSwept order i = false by
          simp [DestroyPhase.hasSwept, DestroyPhase.inFirst, DestroyPhase.left]] at hagrees
        have heq := hagrees.status_eq
        cases hgone : (s.infos i).phase.isGone with
        | false =>
            rw [hgone] at heq
            exact heq
        | true => cases hagrees.gone_swept hgone
      refine potential_visit hphase (potential_set_le ⟨id, fun htwo => ?_⟩ ?_) ?_
      · rw [hzero] at htwo
        cases htwo
      · exact Nat.add_le_add_left (Nat.zero_le _) _
      · simp only [DestroyPhase.weight]
        omega
  | @signal i rest hphase =>
      refine potential_visit hphase (potential_signal_le s i) ?_
      simp only [DestroyPhase.weight]
      omega
  | @relock i rest x hphase hx =>
      -- an orderly destroyer only looks at a thread if that frees or wakes it
      have huseful : (s.infos i).isUseful = true := by
        simpa only [Orderly, hphase] using horderly
      have hxuseful : x.isUseful = true := by
        obtain ⟨_, rfl⟩ := EvThreadInfo.lock_eq_some hx
        exact huseful
      refine potential_visit hphase (potential_lock hx) ?_
      simp only [DestroyPhase.weight, List.length_cons, EvThreadPool.set, Function.update_self,
        hxuseful, if_true]
      omega
  | free hphase _ =>
      refine potential_visit hphase (potential_set_le ⟨id, id⟩ (Nat.le_refl _)) ?_
      simp only [DestroyPhase.weight]
      split <;> omega
  | @unlock i rest hphase hstatus =>
      refine potential_visit hphase (potential_set_le ⟨id, id⟩ (Nat.le_refl _)) ?_
      -- without the status to be freed only a waiting thread is worth the turn
      have hsame : (s.infos i).isUseful = (s.infos i).phase.isBlocked := by
        simp [EvThreadInfo.isUseful, hstatus]
      simp only [DestroyPhase.weight, EvThreadPool.set, Function.update_self]
      change _ + (if (s.infos i).phase.isBlocked = true then 1 else 4)
        < _ + (if (s.infos i).isUseful = true then 2 else 5)
      rw [hsame]
      split <;> omega
  | @resignal i rest hphase =>
      refine potential_visit hphase (potential_signal_le s i) ?_
      simp only [DestroyPhase.weight, List.length_cons, EvThreadPool.set, Function.update_self,
        EvThreadInfo.signal_notBlocked, Bool.false_eq_true, if_false]
      omega

theorem Calm.lowers (h : s.Calm order) {a : PoolAction ι κ τ}
    (hstep : (orderlyPool order).step s a = some s') :
    s'.potential order + 1 ≤ s.potential order + a.price := by
  obtain ⟨horderly, hstep⟩ := System.restrict_step.1 hstep
  cases a with
  | worker i =>
      obtain ⟨x, hx, rfl⟩ := Option.map_eq_some_iff.1 hstep
      exact worker_lowers h hx
  | wake i =>
      unfold threadPool at hstep
      simp only at hstep
      split at hstep
      · next hphase =>
          cases hstep
          have hsignal := potential_signal order s i
          rw [EvThreadInfo.signal_blocked hphase, hphase] at hsignal
          exact hsignal
      · cases hstep
  | add k i task =>
      unfold threadPool at hstep
      simp only at hstep
      split at hstep
      · next hphase =>
          cases hstep
          have htotal := total_update hphase (.called i task) AddPhase.weight
          simp only [AddPhase.weight] at htotal
          simp only [potential, moveAdder, PoolAction.price]
          omega
      · cases hstep
  | adder k => exact adder_lowers hstep
  | destroyer => exact destroyer_lowers h horderly hstep

end EvThreadPool

/-! ## At rest -/

/-- A lock of this mutex waits, or the mutex is freed. -/
def EvThreadInfo.IsShut (info : EvThreadInfo ι κ τ) : Prop := info.mutex ≠ none ∨ info.freed = true

omit [DecidableEq ι] [DecidableEq κ] [Fintype ι] [Fintype κ] in
theorem EvThreadInfo.lock_eq_none {info : EvThreadInfo ι κ τ} {t : PoolThread ι κ}
    (h : info.lock t = none) : info.IsShut := by
  unfold EvThreadInfo.lock at h
  split at h
  · cases h
  · next hshut =>
      rw [Bool.and_eq_true, Option.isNone_iff_eq_none, Bool.not_eq_true', not_and_or,
        Bool.not_eq_false] at hshut
      exact hshut

omit [DecidableEq ι] [DecidableEq κ] [Fintype ι] [Fintype κ] in
/-- Why a worker does not go on. -/
theorem EvThreadInfo.workerStep_eq_none {info : EvThreadInfo ι κ τ} {i : ι}
    (h : info.workerStep i = none) :
    info.phase = .blocked ∨ info.phase = .exited ∨
      ((info.phase = .top ∨ info.phase = .woken) ∧ info.IsShut) := by
  unfold EvThreadInfo.workerStep at h
  split at h
  · next hphase =>
      exact Or.inr (Or.inr ⟨Or.inl hphase, lock_eq_none (Option.map_eq_none_iff.1 h)⟩)
  · split at h <;> cases h
  · next hphase => exact Or.inl hphase
  · next hphase =>
      exact Or.inr (Or.inr ⟨Or.inr hphase, lock_eq_none (Option.map_eq_none_iff.1 h)⟩)
  · split at h
    · split at h <;> cases h
    · cases h
  · cases h
  · cases h
  · next hphase => exact Or.inr (Or.inl hphase)

namespace EvThreadPool

variable {order : List ι} {s : EvThreadPool ι κ τ}

omit [Fintype ι] [Fintype κ] in
theorem adderStep_eq_none {k : κ} (h : s.adderStep k = none) :
    s.adder k = .out ∨ ∃ i task, s.adder k = .called i task ∧ (s.infos i).IsShut := by
  unfold adderStep at h
  split at h
  · next hphase => exact Or.inl hphase
  · next i task hphase =>
      exact Or.inr ⟨i, task, hphase, EvThreadInfo.lock_eq_none (Option.map_eq_none_iff.1 h)⟩
  · cases h
  · cases h

omit [DecidableEq κ] [Fintype ι] [Fintype κ] in
theorem destroyerStep_eq_none (h : s.destroyerStep order = none) :
    s.destroyer = .done ∨ ∃ i rest, (s.destroyer = .sweep (i :: rest) ∨
      s.destroyer = .reap (i :: rest)) ∧ (s.infos i).IsShut := by
  unfold destroyerStep at h
  split at h
  · cases h
  · cases h
  · next i rest hphase =>
      exact Or.inr ⟨i, rest, Or.inl hphase,
        EvThreadInfo.lock_eq_none (Option.map_eq_none_iff.1 h)⟩
  · cases h
  · cases h
  · cases h
  · next i rest hphase =>
      exact Or.inr ⟨i, rest, Or.inr hphase,
        EvThreadInfo.lock_eq_none (Option.map_eq_none_iff.1 h)⟩
  · split at h <;> cases h
  · cases h
  · next hphase => exact Or.inl hphase

/-- The pool is gone: all threads have exited and are freed, no task is left, and nobody uses the
    pool any more. -/
structure Destroyed (s : EvThreadPool ι κ τ) : Prop where
  done : s.destroyer = .done
  adders_out : ∀ k, s.adder k = .out
  exited : ∀ i, (s.infos i).phase = .exited
  freed : ∀ i, (s.infos i).freed = true
  tasks_nil : ∀ i, (s.infos i).tasks = []

/-- No thread can go on. -/
structure Stuck (order : List ι) (s : EvThreadPool ι κ τ) : Prop where
  worker : ∀ i, Orderly s (.worker i) → (s.infos i).workerStep i = none
  adder : ∀ k, s.adderStep k = none
  destroyer : Orderly s .destroyer → s.destroyerStep order = none

omit [Fintype ι] in
theorem Stuck.of_atRest (h : AtRest (orderlyPool order) PoolAction.isOwn s) : s.Stuck order := by
  have hnone : ∀ a, PoolAction.isOwn a = true → Orderly s a →
      (threadPool order).step s a = none := by
    intro a ha horderly
    have hrest := h a ha
    change (if Orderly s a then (threadPool order).step s a else none) = none at hrest
    rwa [if_pos horderly] at hrest
  exact ⟨fun i hi => Option.map_eq_none_iff.1 (hnone (.worker i) rfl hi),
    fun k => hnone (.adder k) rfl trivial, hnone .destroyer rfl⟩

namespace Stuck

omit [Fintype ι] [Fintype κ]

/-- Who holds a mutex could go on. -/
theorem mutex_none (h : s.Stuck order) (hcalm : s.Calm order) (i : ι) :
    (s.infos i).mutex = none := by
  cases hmutex : (s.infos i).mutex with
  | none => rfl
  | some t =>
      have hinside := hcalm.holder_inside i t hmutex
      cases t with
      | worker j =>
          simp only [EvThreadPool.inside] at hinside
          split at hinside
          · next hin =>
              cases hinside
              have horderly : Orderly s (.worker i) := by
                intro hwoken
                revert hin hwoken
                cases (s.infos i).phase <;> simp [TaskPhase.isInside, TaskPhase.isWoken]
              rcases EvThreadInfo.workerStep_eq_none (h.worker i horderly) with hphase | hphase |
                ⟨hphase | hphase, _⟩ <;>
                · rw [hphase] at hin
                  cases hin
          · cases hinside
      | adder k =>
          simp only [EvThreadPool.inside] at hinside
          rcases adderStep_eq_none (h.adder k) with hphase | ⟨j, task, hphase, _⟩ <;>
            · rw [hphase] at hinside
              cases hinside
      | destroyer =>
          simp only [EvThreadPool.inside] at hinside
          have horderly : Orderly s .destroyer := by
            unfold Orderly
            cases hphase : s.destroyer <;> simp_all [DestroyPhase.inside]
          rcases destroyerStep_eq_none (h.destroyer horderly) with hphase |
            ⟨j, rest, hphase | hphase, _⟩ <;>
            · rw [hphase] at hinside
              cases hinside

/-- Only what is freed is shut. -/
theorem freed_of_shut (h : s.Stuck order) (hcalm : s.Calm order) {i : ι}
    (hshut : (s.infos i).IsShut) : s.destroyer.hasFreed order i = true := by
  rcases hshut with hmutex | hfreed
  · exact absurd (h.mutex_none hcalm i) hmutex
  · rwa [← (hcalm.reaps.agrees i).freed_eq]

theorem adders_out (h : s.Stuck order) (hcalm : s.Calm order) (k : κ) : s.adder k = .out := by
  rcases adderStep_eq_none (h.adder k) with hout | ⟨i, task, hphase, hshut⟩
  · exact hout
  · have hfreed := h.freed_of_shut hcalm hshut
    by_cases hdestroyer : s.destroyer = .out
    · rw [hdestroyer] at hfreed
      cases hfreed
    · have hout := hcalm.adders_out hdestroyer k
      rw [hphase] at hout
      cases hout

/-- A worker that is to exit waits or has exited. -/
theorem worker_rests (h : s.Stuck order) (hcalm : s.Calm order) {i : ι}
    (hstatus : (s.infos i).status ≠ 0) :
    (s.infos i).phase = .blocked ∨ (s.infos i).phase = .exited := by
  rcases EvThreadInfo.workerStep_eq_none (h.worker i fun _ => Or.inr hstatus) with hphase | hphase |
    ⟨hphase, hshut⟩
  · exact Or.inl hphase
  · exact Or.inr hphase
  · have hagrees := hcalm.reaps.agrees i
    have hgone := hagrees.freed_gone (hagrees.freed_eq.trans (h.freed_of_shut hcalm hshut))
    rcases hphase with hphase | hphase <;>
      · rw [hphase] at hgone
        cases hgone

/-- In front of a thread in either loop the destroyer can go on. -/
theorem not_shut_of_left (h : s.Stuck order) (hcalm : s.Calm order) {i : ι}
    (hi : i ∈ s.destroyer.left) : ¬ (s.infos i).IsShut := by
  intro hshut
  have hfreed := h.freed_of_shut hcalm hshut
  unfold DestroyPhase.hasFreed at hfreed
  split at hfreed
  · cases hfreed
  · exact (of_decide_eq_true hfreed).2.2 hi

/-- The second loop has something to do as long as a thread is left. -/
theorem useful_of_reap (h : s.Stuck order) (hcalm : s.Calm order) {i : ι} {rest : List ι}
    (hphase : s.destroyer = .reap (i :: rest)) : (s.infos i).isUseful = true := by
  have hmem : i ∈ order := by
    refine hcalm.reaps.left_suffix.subset ?_
    rw [hphase]
    exact List.mem_cons_self
  have hstatus := (hcalm.reaps.agrees i).status_eq
  rw [hphase, show (DestroyPhase.reap (i :: rest)).hasSwept order i = true by
    simp [DestroyPhase.hasSwept, DestroyPhase.inFirst, hmem], Bool.toNat_true] at hstatus
  simp only [EvThreadInfo.isUseful, Bool.or_eq_true, beq_iff_eq]
  rcases h.worker_rests hcalm (by omega : (s.infos i).status ≠ 0) with hblocked | hexited
  · exact Or.inl (by rw [hblocked]; rfl)
  · rw [hexited] at hstatus
    exact Or.inr hstatus

theorem destroyer_done (h : s.Stuck order) (hcalm : s.Calm order) : s.destroyer = .done := by
  have horderly : Orderly s .destroyer := by
    simp only [Orderly]
    split
    · intro k
      rw [h.adders_out hcalm k]
      rfl
    · next hphase => exact h.useful_of_reap hcalm hphase
    · trivial
  rcases destroyerStep_eq_none (h.destroyer horderly) with hdone | ⟨i, rest, hphase, hshut⟩
  · exact hdone
  · refine absurd hshut (h.not_shut_of_left hcalm ?_)
    rcases hphase with hphase | hphase <;>
      · rw [hphase]
        exact List.mem_cons_self

/-- Nothing stops before the pool is gone. -/
theorem destroyed (h : s.Stuck order) (hcalm : s.Calm order) (hall : ∀ i, i ∈ order) :
    s.Destroyed := by
  have hdone := h.destroyer_done hcalm
  have hagrees : ∀ i, (s.infos i).Agrees true true := fun i => by
    have hi := hcalm.reaps.agrees i
    rw [hdone] at hi
    simpa [DestroyPhase.hasSwept, DestroyPhase.hasFreed, DestroyPhase.inFirst, DestroyPhase.left,
      hall i] using hi
  have hstatus : ∀ i, (s.infos i).status ≠ 0 := fun i => by
    rw [(hagrees i).status_eq, Bool.toNat_true]
    omega
  refine ⟨hdone, h.adders_out hcalm, fun i => ?_, fun i => (hagrees i).freed_eq,
    fun i => hcalm.drained i (hstatus i)⟩
  have hgone := (hagrees i).freed_gone (hagrees i).freed_eq
  rcases h.worker_rests hcalm (hstatus i) with hphase | hphase
  · rw [hphase] at hgone
    cases hgone
  · exact hphase

end Stuck

end EvThreadPool

theorem EvThreadPool.potential_orderlyPool {order : List ι} (hnodup : order.Nodup) :
    Potential (orderlyPool order : System (EvThreadPool ι κ τ) (PoolAction ι κ τ))
      (EvThreadPool.potential order) PoolAction.price where
  lowers := fun _ _ _ hs hstep => (Calm.of_reachable hnodup hs).lowers hstep

theorem EvThreadPool.potential_init (order : List ι) :
    potential order (orderlyPool order : System (EvThreadPool ι κ τ) (PoolAction ι κ τ)).init
      = 9 * Fintype.card ι + 5 * order.length + 3 := by
  have hinfos := total_const (ι := ι) (⟨0, [], none, false, .top⟩ : EvThreadInfo ι κ τ)
    EvThreadInfo.weight
  have hadders := total_const (ι := κ) (.out : AddPhase ι τ) AddPhase.weight
  simp only [EvThreadInfo.weight, AddPhase.weight, TaskPhase.weight, List.length_nil]
    at hinfos hadders
  simp only [potential, orderlyPool, threadPool, System.restrict, DestroyPhase.weight, hinfos,
    hadders]
  omega

/-- **The pool stops.** In orderly runs every step but a call of `ev_task_info_add` brings the threads
    and the destroyer nearer to their end, so a run is as long as what was added allows; and from
    every state the threads come to rest by themselves, all of them having exited, with their
    `struct ev_thread_info` freed. -/
theorem threadPool_settles {order : List ι} (hnodup : order.Nodup) (hall : ∀ i, i ∈ order) :
    (∀ (as : List (PoolAction ι κ τ)) (s : EvThreadPool ι κ τ),
      (orderlyPool order).run (orderlyPool order).init as = some s →
        as.length ≤ 9 * Fintype.card ι + 5 * order.length + 3 + (as.map PoolAction.price).sum) ∧
    ∀ s : EvThreadPool ι κ τ, Reachable (orderlyPool order) s →
      Settles (orderlyPool order) PoolAction.isOwn (s.potential order) EvThreadPool.Destroyed s := by
  have hpotential := EvThreadPool.potential_orderlyPool (κ := κ) (τ := τ) hnodup
  constructor
  · intro as s hrun
    have hle := hpotential.run Reachable.init hrun
    rw [EvThreadPool.potential_init] at hle
    omega
  · intro s hs
    refine hpotential.settles (fun _ => PoolAction.price_of_isOwn) hs fun as s' hrun hrest => ?_
    exact (EvThreadPool.Stuck.of_atRest hrest).destroyed
      (EvThreadPool.Calm.of_reachable hnodup (hrun.reachable hs)) hall

end Settling

/-- A worker that waits, and a destroyer that wakes it. -/
theorem threadPool_settles_waiting : ∃ s : EvThreadPool Unit Unit Nat,
    Reachable (orderlyPool [()]) s ∧ (s.infos ()).phase = .blocked ∧
    Settles (orderlyPool [()]) PoolAction.isOwn (s.potential [()]) EvThreadPool.Destroyed s := by
  have hs := Reachable.init.run (show (orderlyPool [()]).run (orderlyPool [()]).init
    ([.add () () 1, .adder (), .adder (), .adder (), .worker (), .worker (), .worker (), .worker (),
      .worker (), .worker ()] : List (PoolAction Unit Unit Nat)) = some _ from rfl)
  exact ⟨_, hs, rfl, (threadPool_settles (List.nodup_singleton ()) fun _ =>
    List.mem_singleton_self ()).2 _ hs⟩

end Ryze
