import Ryze.Lib.Mutexes
import Ryze.Lib.Transition

set_option autoImplicit false

/-! # The thread pool of `ev_thread_pool.cc`

Every worker has a `struct ev_thread_info` of its own, with a mutex, a condition variable nobody else
waits on, and a list of tasks. Any number of threads add tasks, and one destroys the pool. Locking
and unlocking are steps of their own, and so is a signal, which comes after the unlock. The worker's
loop goes back to its top with the mutex locked when `pthread_cond_wait` returns and there is neither
a task nor an end of the pool; `pthread_mutex_lock` then never returns, and nobody else gets the
mutex any more. The pool is as `ev_thread_pool_init` leaves it, with all threads at their beginning. -/

namespace Ryze

open Mutexes Transition

/-- Who can hold a mutex. -/
inductive PoolThread (ι κ : Type)
  | worker (i : ι)
  | adder (k : κ)
  | destroyer
deriving DecidableEq, Repr

/-- Where a worker is in `ev_task_info_func`. -/
inductive TaskPhase (τ : Type)
  /-- at the top of the loop, in front of `pthread_mutex_lock` -/
  | top
  /-- in front of the first test of `head` -/
  | locked
  /-- inside `pthread_cond_wait` -/
  | blocked
  /-- inside `pthread_cond_wait`, woken, without the mutex yet -/
  | woken
  /-- in front of the second test of `head` -/
  | tested
  /-- inside `func` or `callback` -/
  | running (task : τ)
  /-- in front of the last signal -/
  | exiting
  | exited
deriving DecidableEq, Repr

def TaskPhase.isWoken {τ : Type} : TaskPhase τ → Bool
  | .woken => true
  | _ => false

/-- Inside a section under its mutex. -/
def TaskPhase.isInside {τ : Type} : TaskPhase τ → Bool
  | .locked => true
  | .tested => true
  | _ => false

/-- `struct ev_thread_info`, its list from `head` to `tail`, who holds its mutex, whether it has been
    freed, and where its worker is. -/
structure EvThreadInfo (ι κ τ : Type) where
  status : Nat
  tasks : List τ
  mutex : Option (PoolThread ι κ)
  freed : Bool
  phase : TaskPhase τ
deriving DecidableEq, Repr

/-- Where a thread is in `ev_task_info_add`. -/
inductive AddPhase (ι τ : Type)
  | out
  /-- in front of the lock -/
  | called (i : ι) (task : τ)
  | locked (i : ι) (task : τ)
  /-- in front of the signal -/
  | added (i : ι)
deriving DecidableEq, Repr

/-- Where the thread is that calls `ev_thread_pool_destroy`; `rest` is the list from `thread_info`
    on. -/
inductive DestroyPhase (ι : Type)
  | out
  /-- the first loop: in front of the lock, of the body, and of the signal -/
  | sweep (rest : List ι)
  | sweeping (i : ι) (rest : List ι)
  | swept (i : ι) (rest : List ι)
  /-- the second loop, likewise -/
  | reap (rest : List ι)
  | reaping (i : ι) (rest : List ι)
  | reaped (i : ι) (rest : List ι)
  | done
deriving DecidableEq, Repr

structure EvThreadPool (ι κ τ : Type) where
  infos : ι → EvThreadInfo ι κ τ
  adder : κ → AddPhase ι τ
  destroyer : DestroyPhase ι

/-- The next step of a worker, of a thread that adds a task or of the one that destroys the pool; a
    call of `ev_task_info_add`; a wake-up without a signal. -/
inductive PoolAction (ι κ τ : Type)
  | worker (i : ι)
  | wake (i : ι)
  | add (k : κ) (i : ι) (task : τ)
  | adder (k : κ)
  | destroyer
deriving DecidableEq, Repr

section Step

variable {ι κ τ : Type}

/-- `pthread_mutex_lock(&thread_info->mutex)` by `t`. -/
def EvThreadInfo.lock (info : EvThreadInfo ι κ τ) (t : PoolThread ι κ) :
    Option (EvThreadInfo ι κ τ) :=
  if info.mutex.isNone && !info.freed then some { info with mutex := some t } else none

/-- `pthread_cond_signal(&thread_info->cond)`. -/
def EvThreadInfo.signal (info : EvThreadInfo ι κ τ) : EvThreadInfo ι κ τ :=
  match info.phase with
  | .blocked => { info with phase := .woken }
  | _ => info

/-- `ev_task_info_func` of worker `i`. -/
def EvThreadInfo.workerStep (info : EvThreadInfo ι κ τ) (i : ι) : Option (EvThreadInfo ι κ τ) :=
  match info.phase with
  | .top => (info.lock (.worker i)).map fun info => { info with phase := .locked }
  | .locked =>
    match info.tasks with
    | [] => some { info with mutex := none, phase := .blocked }
    | _ :: _ => some { info with phase := .tested }
  | .blocked => none
  | .woken => (info.lock (.worker i)).map fun info => { info with phase := .tested }
  | .tested =>
    match info.tasks with
    | [] =>
      -- `continue`, without an unlock
      if info.status = 0 then some { info with phase := .top }
      else some { info with status := info.status + 1, mutex := none, phase := .exiting }
    | task :: tasks => some { info with tasks := tasks, mutex := none, phase := .running task }
  | .running _ => some { info with phase := .top }
  -- the signal of a worker that exits reaches nobody
  | .exiting => some { info with phase := .exited }
  | .exited => none

variable [DecidableEq ι] [DecidableEq κ]

def EvThreadPool.set (s : EvThreadPool ι κ τ) (i : ι) (info : EvThreadInfo ι κ τ) :
    EvThreadPool ι κ τ :=
  { s with infos := Function.update s.infos i info }

def EvThreadPool.moveAdder (s : EvThreadPool ι κ τ) (k : κ) (p : AddPhase ι τ) :
    EvThreadPool ι κ τ :=
  { s with adder := Function.update s.adder k p }

def EvThreadPool.moveDestroyer (s : EvThreadPool ι κ τ) (p : DestroyPhase ι) :
    EvThreadPool ι κ τ :=
  { s with destroyer := p }

/-- `ev_task_info_add` by `k`. -/
def EvThreadPool.adderStep (s : EvThreadPool ι κ τ) (k : κ) : Option (EvThreadPool ι κ τ) :=
  match s.adder k with
  | .out => none
  | .called i task => ((s.infos i).lock (.adder k)).map fun info =>
      (s.set i info).moveAdder k (.locked i task)
  | .locked i task =>
    some ((s.set i { s.infos i with tasks := (s.infos i).tasks ++ [task], mutex := none }).moveAdder
      k (.added i))
  | .added i => some ((s.set i (s.infos i).signal).moveAdder k .out)

/-- `ev_thread_pool_destroy`; the pool's list of threads is `order`. -/
def EvThreadPool.destroyerStep (order : List ι) (s : EvThreadPool ι κ τ) :
    Option (EvThreadPool ι κ τ) :=
  match s.destroyer with
  | .out => some (s.moveDestroyer (.sweep order))
  | .sweep [] => some (s.moveDestroyer (.reap order))
  | .sweep (i :: rest) => ((s.infos i).lock .destroyer).map fun info =>
      (s.set i info).moveDestroyer (.sweeping i rest)
  | .sweeping i rest =>
    some ((s.set i { s.infos i with
      status := (s.infos i).status + 1
      tasks := []
      mutex := none }).moveDestroyer (.swept i rest))
  | .swept i rest => some ((s.set i (s.infos i).signal).moveDestroyer (.sweep rest))
  | .reap [] => some (s.moveDestroyer .done)
  | .reap (i :: rest) => ((s.infos i).lock .destroyer).map fun info =>
      (s.set i info).moveDestroyer (.reaping i rest)
  | .reaping i rest =>
    if (s.infos i).status = 2 then
      some ((s.set i { s.infos i with mutex := none, freed := true }).moveDestroyer (.reap rest))
    else some ((s.set i { s.infos i with mutex := none }).moveDestroyer (.reaped i rest))
  | .reaped i rest => some ((s.set i (s.infos i).signal).moveDestroyer (.reap (i :: rest)))
  | .done => none

def threadPool (order : List ι) : System (EvThreadPool ι κ τ) (PoolAction ι κ τ) where
  init := ⟨fun _ => ⟨0, [], none, false, .top⟩, fun _ => .out, .out⟩
  step s
    | .worker i => ((s.infos i).workerStep i).map (s.set i)
    | .wake i =>
      match (s.infos i).phase with
      | .blocked => some (s.set i { s.infos i with phase := .woken })
      | _ => none
    | .add k i task =>
      match s.adder k with
      | .out => some (s.moveAdder k (.called i task))
      | _ => none
    | .adder k => s.adderStep k
    | .destroyer => s.destroyerStep order

/-- The worker is about to lock a mutex that it holds. -/
def EvThreadPool.SelfLock (s : EvThreadPool ι κ τ) (i : ι) : Prop :=
  (s.infos i).phase = .top ∧ (s.infos i).mutex = some (.worker i)

/-- `pthread_cond_wait` returns to a worker that has a task or is to exit. -/
def WokenForCause (s : EvThreadPool ι κ τ) : PoolAction ι κ τ → Prop
  | .worker i => (s.infos i).phase.isWoken = true → (s.infos i).tasks ≠ [] ∨ (s.infos i).status ≠ 0
  | _ => True

instance (s : EvThreadPool ι κ τ) : (a : PoolAction ι κ τ) → Decidable (WokenForCause s a)
  | .worker i => inferInstanceAs (Decidable ((s.infos i).phase.isWoken = true →
      (s.infos i).tasks ≠ [] ∨ (s.infos i).status ≠ 0))
  | .wake _ => isTrue trivial
  | .add _ _ _ => isTrue trivial
  | .adder _ => isTrue trivial
  | .destroyer => isTrue trivial

end Step

/-! ## Whose section a mutex is held for -/

section Sections

variable {ι κ τ : Type}

/-- The mutex whose section a thread that adds a task is in. -/
def AddPhase.inside : AddPhase ι τ → Option ι
  | .locked i _ => some i
  | _ => none

def DestroyPhase.inside : DestroyPhase ι → Option ι
  | .sweeping i _ => some i
  | .reaping i _ => some i
  | _ => none

/-- The mutex whose section a thread is in. -/
def EvThreadPool.inside (s : EvThreadPool ι κ τ) : PoolThread ι κ → Option ι
  | .worker i => if (s.infos i).phase.isInside then some i else none
  | .adder k => (s.adder k).inside
  | .destroyer => s.destroyer.inside

def EvThreadPool.mutex (s : EvThreadPool ι κ τ) (i : ι) : Option (PoolThread ι κ) :=
  (s.infos i).mutex

theorem EvThreadInfo.lock_eq_some {info x : EvThreadInfo ι κ τ} {t : PoolThread ι κ}
    (h : info.lock t = some x) : info.mutex = none ∧ x = { info with mutex := some t } := by
  unfold EvThreadInfo.lock at h
  split at h
  · next hfree =>
      cases h
      rw [Bool.and_eq_true, Option.isNone_iff_eq_none] at hfree
      exact ⟨hfree.1, rfl⟩
  · cases h

theorem EvThreadInfo.signal_cases (info : EvThreadInfo ι κ τ) :
    (info.phase = .blocked ∧ info.signal = { info with phase := .woken }) ∨
      (info.phase ≠ .blocked ∧ info.signal = info) := by
  unfold EvThreadInfo.signal
  split
  · next h => exact Or.inl ⟨h, rfl⟩
  · next h => exact Or.inr ⟨h, rfl⟩

theorem EvThreadInfo.signal_isInside (info : EvThreadInfo ι κ τ) :
    info.signal.phase.isInside = info.phase.isInside := by
  rcases info.signal_cases with ⟨hphase, heq⟩ | ⟨_, heq⟩
  · rw [heq, hphase]
    rfl
  · rw [heq]

theorem EvThreadInfo.signal_mutex (info : EvThreadInfo ι κ τ) :
    info.signal.mutex = info.mutex := by
  rcases info.signal_cases with ⟨_, heq⟩ | ⟨_, heq⟩ <;> rw [heq]

variable [DecidableEq ι] [DecidableEq κ]

omit [DecidableEq κ] in
theorem EvThreadPool.mutex_set (s : EvThreadPool ι κ τ) (i : ι) (x : EvThreadInfo ι κ τ) :
    (s.set i x).mutex = Function.update s.mutex i x.mutex := by
  funext j
  by_cases hj : j = i
  · subst hj
    simp [EvThreadPool.mutex, EvThreadPool.set]
  · simp [EvThreadPool.mutex, EvThreadPool.set, Function.update_of_ne hj]

/-- A step on one `struct ev_thread_info` moves at most its worker. -/
theorem EvThreadPool.inside_set (s : EvThreadPool ι κ τ) (i : ι) (x : EvThreadInfo ι κ τ) :
    (s.set i x).inside
      = Function.update s.inside (.worker i) (if x.phase.isInside then some i else none) := by
  funext t
  cases t with
  | worker j =>
      by_cases hj : j = i
      · subst hj
        simp [EvThreadPool.inside, EvThreadPool.set]
      · have hne : PoolThread.worker j ≠ (.worker i : PoolThread ι κ) := by simpa using hj
        simp [EvThreadPool.inside, EvThreadPool.set, Function.update_of_ne hj,
          Function.update_of_ne hne]
  | adder k => rfl
  | destroyer => rfl

theorem EvThreadPool.inside_set_same (s : EvThreadPool ι κ τ) (i : ι) (x : EvThreadInfo ι κ τ)
    (hx : x.phase.isInside = (s.infos i).phase.isInside) : (s.set i x).inside = s.inside := by
  rw [EvThreadPool.inside_set, hx]
  exact Function.update_eq_self (PoolThread.worker i) s.inside

theorem EvThreadPool.inside_moveAdder (s : EvThreadPool ι κ τ) (k : κ) (p : AddPhase ι τ) :
    (s.moveAdder k p).inside = Function.update s.inside (.adder k) p.inside := by
  funext t
  cases t with
  | worker j => rfl
  | adder l =>
      by_cases hl : l = k
      · subst hl
        simp [EvThreadPool.inside, EvThreadPool.moveAdder]
      · have hne : PoolThread.adder l ≠ (.adder k : PoolThread ι κ) := by simpa using hl
        simp [EvThreadPool.inside, EvThreadPool.moveAdder, Function.update_of_ne hl, Function.update_of_ne hne]
  | destroyer => rfl

theorem EvThreadPool.inside_moveDestroyer (s : EvThreadPool ι κ τ) (p : DestroyPhase ι) :
    (s.moveDestroyer p).inside = Function.update s.inside .destroyer p.inside := by
  funext t
  cases t with
  | worker j => rfl
  | adder k => rfl
  | destroyer => simp [EvThreadPool.inside, EvThreadPool.moveDestroyer]

omit [DecidableEq ι] [DecidableEq κ] in
/-- A worker's step locks, unlocks, or leaves the mutex alone; only in the last case can it be on the
    way out of a section without having unlocked. -/
theorem EvThreadInfo.workerStep_mutex {info x : EvThreadInfo ι κ τ} {i : ι}
    (h : info.workerStep i = some x) :
    (info.mutex = none ∧ x.mutex = some (.worker i) ∧ x.phase.isInside = true) ∨
    (info.phase.isInside = true ∧ x.mutex = none ∧ x.phase.isInside = false) ∨
    (x.mutex = info.mutex ∧
      (x.phase.isInside = info.phase.isInside ∨ x.phase.isInside = false)) := by
  unfold EvThreadInfo.workerStep at h
  split at h
  · obtain ⟨y, hy, rfl⟩ := Option.map_eq_some_iff.1 h
    obtain ⟨hfree, rfl⟩ := EvThreadInfo.lock_eq_some hy
    exact Or.inl ⟨hfree, rfl, rfl⟩
  · next hphase =>
      rw [hphase]
      split at h
      · cases h
        exact Or.inr (Or.inl ⟨rfl, rfl, rfl⟩)
      · cases h
        exact Or.inr (Or.inr ⟨rfl, Or.inl rfl⟩)
  · cases h
  · obtain ⟨y, hy, rfl⟩ := Option.map_eq_some_iff.1 h
    obtain ⟨hfree, rfl⟩ := EvThreadInfo.lock_eq_some hy
    exact Or.inl ⟨hfree, rfl, rfl⟩
  · next hphase =>
      rw [hphase]
      split at h
      · split at h
        · cases h
          exact Or.inr (Or.inr ⟨rfl, Or.inr rfl⟩)
        · cases h
          exact Or.inr (Or.inl ⟨rfl, rfl, rfl⟩)
      · cases h
        exact Or.inr (Or.inl ⟨rfl, rfl, rfl⟩)
  · cases h
    exact Or.inr (Or.inr ⟨rfl, Or.inr rfl⟩)
  · cases h
    exact Or.inr (Or.inr ⟨rfl, Or.inr rfl⟩)
  · cases h

omit [DecidableEq ι] [DecidableEq κ] in
theorem EvThreadInfo.signal_blocked {info : EvThreadInfo ι κ τ} (h : info.phase = .blocked) :
    info.signal = { info with phase := .woken } := by
  rcases info.signal_cases with ⟨_, heq⟩ | ⟨hne, _⟩
  · exact heq
  · exact absurd h hne

/-- What a thread that is no worker does in one step: it moves on outside of all sections, or it
    locks, unlocks or signals one worker's `struct ev_thread_info` on its way. -/
inductive EvThreadPool.Visits (t : PoolThread ι κ) (s s' : EvThreadPool ι κ τ) : Prop
  | leave (hinfos : s'.infos = s.infos) (hinside : s'.inside = Function.update s.inside t none)
  | lock {i : ι} {x : EvThreadInfo ι κ τ} (h : (s.infos i).lock t = some x)
      (hinfos : s'.infos = (s.set i x).infos)
      (hinside : s'.inside = Function.update (s.set i x).inside t (some i))
  | unlock {i : ι} {x : EvThreadInfo ι κ τ} (hin : s.inside t = some i)
      (hinfos : s'.infos = (s.set i x).infos)
      (hinside : s'.inside = Function.update (s.set i x).inside t none) (hmutex : x.mutex = none)
      (hphase : x.phase = (s.infos i).phase)
      (hcause : (s.infos i).tasks ≠ [] ∨ (s.infos i).status ≠ 0 → x.tasks ≠ [] ∨ x.status ≠ 0)
  | signal {i : ι} (hinfos : s'.infos = (s.set i (s.infos i).signal).infos)
      (hinside : s'.inside = Function.update (s.set i (s.infos i).signal).inside t none)

theorem EvThreadPool.adderStep_visits {s s' : EvThreadPool ι κ τ} {k : κ}
    (h : s.adderStep k = some s') : s.Visits (.adder k) s' := by
  unfold EvThreadPool.adderStep at h
  split at h
  · cases h
  · obtain ⟨x, hx, rfl⟩ := Option.map_eq_some_iff.1 h
    exact .lock hx rfl (EvThreadPool.inside_moveAdder ..)
  · next i task hphase =>
      cases h
      have hin : s.inside (.adder k) = some i := by
        simp [EvThreadPool.inside, hphase, AddPhase.inside]
      exact .unlock hin rfl (EvThreadPool.inside_moveAdder ..) rfl rfl (by simp)
  · cases h
    exact .signal rfl (EvThreadPool.inside_moveAdder ..)

theorem EvThreadPool.destroyerStep_visits {order : List ι} {s s' : EvThreadPool ι κ τ}
    (h : s.destroyerStep order = some s') : s.Visits .destroyer s' := by
  have hin : ∀ {i : ι}, s.destroyer.inside = some i → s.inside .destroyer = some i := id
  unfold EvThreadPool.destroyerStep at h
  split at h
  · cases h
    exact .leave rfl (EvThreadPool.inside_moveDestroyer ..)
  · cases h
    exact .leave rfl (EvThreadPool.inside_moveDestroyer ..)
  · obtain ⟨x, hx, rfl⟩ := Option.map_eq_some_iff.1 h
    exact .lock hx rfl (EvThreadPool.inside_moveDestroyer ..)
  · next i rest hphase =>
      cases h
      have hinside := hin (show s.destroyer.inside = some i by rw [hphase]; rfl)
      refine .unlock hinside rfl (EvThreadPool.inside_moveDestroyer ..) rfl rfl ?_
      intro _
      exact Or.inr (Nat.succ_ne_zero _)
  · cases h
    exact .signal rfl (EvThreadPool.inside_moveDestroyer ..)
  · cases h
    exact .leave rfl (EvThreadPool.inside_moveDestroyer ..)
  · obtain ⟨x, hx, rfl⟩ := Option.map_eq_some_iff.1 h
    exact .lock hx rfl (EvThreadPool.inside_moveDestroyer ..)
  · next i rest hphase =>
      have hinside := hin (show s.destroyer.inside = some i by rw [hphase]; rfl)
      split at h
      · cases h
        exact .unlock hinside rfl (EvThreadPool.inside_moveDestroyer ..) rfl rfl id
      · cases h
        exact .unlock hinside rfl (EvThreadPool.inside_moveDestroyer ..) rfl rfl id
  · cases h
    exact .signal rfl (EvThreadPool.inside_moveDestroyer ..)
  · cases h

/-- A step is one of a worker, a wake-up, or one of another thread. -/
theorem threadPool_step_cases {order : List ι} {s s' : EvThreadPool ι κ τ} {a : PoolAction ι κ τ}
    (h : (threadPool order).step s a = some s') :
    (∃ i x, a = .worker i ∧ (s.infos i).workerStep i = some x ∧ s' = s.set i x) ∨
    (∃ i, s' = s.set i (s.infos i).signal) ∨
    (∃ t, (∀ i, t ≠ .worker i) ∧ s.Visits t s') := by
  cases a with
  | worker i =>
      obtain ⟨x, hx, rfl⟩ := Option.map_eq_some_iff.1 h
      exact Or.inl ⟨i, x, rfl, hx, rfl⟩
  | wake i =>
      unfold threadPool at h
      simp only at h
      split at h
      · next hphase =>
          cases h
          exact Or.inr (Or.inl ⟨i, by rw [EvThreadInfo.signal_blocked hphase]⟩)
      · cases h
  | add k i task =>
      unfold threadPool at h
      simp only at h
      split at h
      · cases h
        exact Or.inr (Or.inr ⟨.adder k, by simp, .leave rfl (EvThreadPool.inside_moveAdder ..)⟩)
      · cases h
  | adder k => exact Or.inr (Or.inr ⟨.adder k, by simp, EvThreadPool.adderStep_visits h⟩)
  | destroyer => exact Or.inr (Or.inr ⟨.destroyer, by simp, EvThreadPool.destroyerStep_visits h⟩)

/-- Every thread holds the mutex of the section it is in. -/
def EvThreadPool.Held (s : EvThreadPool ι κ τ) : Prop := Mutexes.Held s.mutex s.inside

theorem EvThreadPool.Held.worker {s : EvThreadPool ι κ τ} (hs : s.Held) {i : ι}
    {x : EvThreadInfo ι κ τ} (h : (s.infos i).workerStep i = some x) : (s.set i x).Held := by
  unfold EvThreadPool.Held
  rw [EvThreadPool.mutex_set, EvThreadPool.inside_set]
  rcases EvThreadInfo.workerStep_mutex h with ⟨hfree, hmutex, hin⟩ | ⟨hin, hmutex, hout⟩ |
    ⟨hmutex, hin⟩
  · rw [hmutex, hin, if_pos rfl]
    exact Mutexes.Held.lock hs hfree _
  · rw [hmutex, hout, if_neg Bool.false_ne_true]
    refine Mutexes.Held.unlock hs ?_
    simp [EvThreadPool.inside, hin]
  · rw [hmutex, show Function.update s.mutex i (s.infos i).mutex = s.mutex from
      Function.update_eq_self i s.mutex]
    rcases hin with hin | hin
    · rw [hin, show Function.update s.inside (.worker i)
        (if (s.infos i).phase.isInside then some i else none) = s.inside from
        Function.update_eq_self (PoolThread.worker i) s.inside]
      exact hs
    · rw [hin, if_neg Bool.false_ne_true]
      exact Mutexes.Held.leave hs _

theorem EvThreadPool.Held.signal {s : EvThreadPool ι κ τ} (hs : s.Held) (i : ι) :
    (s.set i (s.infos i).signal).Held := by
  unfold EvThreadPool.Held
  rw [EvThreadPool.mutex_set, EvThreadInfo.signal_mutex,
    EvThreadPool.inside_set_same _ _ _ (s.infos i).signal_isInside,
    show Function.update s.mutex i (s.infos i).mutex = s.mutex from
      Function.update_eq_self i s.mutex]
  exact hs

omit [DecidableEq ι] [DecidableEq κ] in
theorem EvThreadPool.mutex_congr {s s' : EvThreadPool ι κ τ} (h : s'.infos = s.infos) :
    s'.mutex = s.mutex := by
  funext i
  rw [EvThreadPool.mutex, h]
  rfl

theorem EvThreadPool.Held.visits {s s' : EvThreadPool ι κ τ} (hs : s.Held) {t : PoolThread ι κ}
    (h : s.Visits t s') : s'.Held := by
  unfold EvThreadPool.Held
  cases h with
  | leave hinfos hinside =>
      rw [EvThreadPool.mutex_congr hinfos, hinside]
      exact Mutexes.Held.leave hs t
  | lock h hinfos hinside =>
      obtain ⟨hfree, rfl⟩ := EvThreadInfo.lock_eq_some h
      rw [EvThreadPool.mutex_congr hinfos, hinside, EvThreadPool.mutex_set,
        EvThreadPool.inside_set_same]
      · exact Mutexes.Held.lock hs hfree t
      · rfl
  | unlock hin hinfos hinside hmutex hphase _ =>
      rw [EvThreadPool.mutex_congr hinfos, hinside, EvThreadPool.mutex_set, hmutex,
        EvThreadPool.inside_set_same]
      · exact Mutexes.Held.unlock hs hin
      · rw [hphase]
  | signal hinfos hinside =>
      rw [EvThreadPool.mutex_congr hinfos, hinside]
      exact Mutexes.Held.leave (hs.signal _) t

theorem EvThreadPool.Held.step {order : List ι} {s s' : EvThreadPool ι κ τ}
    {a : PoolAction ι κ τ} (hs : s.Held) (h : (threadPool order).step s a = some s') : s'.Held := by
  rcases threadPool_step_cases h with ⟨i, x, -, hx, rfl⟩ | ⟨i, rfl⟩ | ⟨t, -, ht⟩
  · exact hs.worker hx
  · exact hs.signal i
  · exact hs.visits ht

theorem EvThreadPool.Held.init (order : List ι) :
    EvThreadPool.Held (threadPool order : System (EvThreadPool ι κ τ) (PoolAction ι κ τ)).init := by
  intro t i ht
  cases t <;> cases ht

theorem EvThreadPool.Held.of_reachable {order : List ι} {s : EvThreadPool ι κ τ}
    (hs : Reachable (threadPool order) s) : s.Held := by
  refine hs.invariant EvThreadPool.Held (EvThreadPool.Held.init order) ?_
  intro s a s' hheld hstep
  exact hheld.step hstep

/-! ## What happens to one `struct ev_thread_info` -/

/-- What others do to worker `i`'s `struct ev_thread_info`: they signal it, lock its mutex when it is
    free, and unlock it when they hold it, with more tasks or a higher status. -/
inductive EvThreadInfo.Touched (i : ι) (info : EvThreadInfo ι κ τ) : EvThreadInfo ι κ τ → Prop
  | signal : Touched i info info.signal
  | lock {t : PoolThread ι κ} (ht : t ≠ .worker i) (hfree : info.mutex = none) :
      Touched i info { info with mutex := some t }
  | unlock {x : EvThreadInfo ι κ τ} (hheld : info.mutex ≠ some (.worker i)) (hmutex : x.mutex = none)
      (hphase : x.phase = info.phase)
      (hcause : info.tasks ≠ [] ∨ info.status ≠ 0 → x.tasks ≠ [] ∨ x.status ≠ 0) :
      Touched i info x

/-- A step leaves all of them alone, or it is the step of one worker, or it touches one. -/
def EvThreadPool.StepOn (s : EvThreadPool ι κ τ) (a : PoolAction ι κ τ)
    (s' : EvThreadPool ι κ τ) : Prop :=
  s'.infos = s.infos ∨ ∃ i x, s'.infos = Function.update s.infos i x ∧
    ((a = .worker i ∧ (s.infos i).workerStep i = some x) ∨ (s.infos i).Touched i x)

omit [DecidableEq κ] in
theorem EvThreadPool.stepOn_touched {s s' : EvThreadPool ι κ τ} {a : PoolAction ι κ τ} {i : ι}
    {x : EvThreadInfo ι κ τ} (hinfos : s'.infos = (s.set i x).infos)
    (h : (s.infos i).Touched i x) : s.StepOn a s' :=
  Or.inr ⟨i, x, hinfos, Or.inr h⟩

theorem EvThreadPool.stepOn_visits {s s' : EvThreadPool ι κ τ} {a : PoolAction ι κ τ}
    (hs : s.Held) {t : PoolThread ι κ} (ht : ∀ i, t ≠ .worker i) (h : s.Visits t s') :
    s.StepOn a s' := by
  cases h with
  | leave hinfos _ => exact Or.inl hinfos
  | @lock i _ h hinfos _ =>
      obtain ⟨hfree, rfl⟩ := EvThreadInfo.lock_eq_some h
      exact EvThreadPool.stepOn_touched hinfos (.lock (ht i) hfree)
  | @unlock i _ hin hinfos _ hmutex hphase hcause =>
      have hheld : (s.infos i).mutex ≠ some (.worker i) := by
        intro hworker
        have hholds := (hs t i hin).symm.trans hworker
        exact ht i (Option.some.inj hholds)
      exact EvThreadPool.stepOn_touched hinfos (.unlock hheld hmutex hphase hcause)
  | signal hinfos _ => exact EvThreadPool.stepOn_touched hinfos .signal

theorem threadPool_stepOn {order : List ι} {s s' : EvThreadPool ι κ τ} {a : PoolAction ι κ τ}
    (hs : s.Held) (h : (threadPool order).step s a = some s') : s.StepOn a s' := by
  rcases threadPool_step_cases h with ⟨i, x, ha, hx, rfl⟩ | ⟨i, rfl⟩ | ⟨t, ht, hvisit⟩
  · exact Or.inr ⟨i, x, rfl, Or.inl ⟨ha, hx⟩⟩
  · exact EvThreadPool.stepOn_touched rfl .signal
  · exact EvThreadPool.stepOn_visits hs ht hvisit

/-! ## Runs in which waits end for a cause -/

/-- A worker that holds its mutex is inside a section, and one that is past the wait has a task or is
    to exit. -/
structure EvThreadInfo.Sound (info : EvThreadInfo ι κ τ) (i : ι) : Prop where
  mutex_inside : info.mutex = some (.worker i) → info.phase.isInside = true
  tested_cause : info.phase = .tested → info.tasks ≠ [] ∨ info.status ≠ 0

omit [DecidableEq ι] [DecidableEq κ] in
theorem EvThreadInfo.Sound.worker {info x : EvThreadInfo ι κ τ} {i : ι} (hinfo : info.Sound i)
    (hcause : info.phase.isWoken = true → info.tasks ≠ [] ∨ info.status ≠ 0)
    (h : info.workerStep i = some x) : x.Sound i := by
  unfold EvThreadInfo.workerStep at h
  split at h
  · obtain ⟨y, hy, rfl⟩ := Option.map_eq_some_iff.1 h
    exact ⟨fun _ => rfl, fun hp => nomatch hp⟩
  · split at h
    · cases h
      exact ⟨fun hm => (nomatch hm), fun hp => nomatch hp⟩
    · next htasks =>
        cases h
        exact ⟨fun _ => rfl, fun _ => Or.inl (by simp [htasks])⟩
  · cases h
  · next hphase =>
      obtain ⟨y, hy, rfl⟩ := Option.map_eq_some_iff.1 h
      obtain ⟨_, rfl⟩ := EvThreadInfo.lock_eq_some hy
      exact ⟨fun _ => rfl, fun _ => hcause (by rw [hphase]; rfl)⟩
  · next hphase =>
      split at h
      · next htasks =>
          split at h
          · next hstatus =>
              -- the `continue`: there is a cause, so it is not taken
              exact absurd (hinfo.tested_cause hphase) (by simp [htasks, hstatus])
          · cases h
            exact ⟨fun hm => (nomatch hm), fun hp => nomatch hp⟩
      · cases h
        exact ⟨fun hm => (nomatch hm), fun hp => nomatch hp⟩
  · next hphase =>
      cases h
      refine ⟨fun hm => ?_, fun hp => nomatch hp⟩
      have := hinfo.mutex_inside hm
      rw [hphase] at this
      cases this
  · next hphase =>
      cases h
      refine ⟨fun hm => ?_, fun hp => nomatch hp⟩
      have := hinfo.mutex_inside hm
      rw [hphase] at this
      cases this
  · cases h

omit [DecidableEq ι] [DecidableEq κ] in
theorem EvThreadInfo.Sound.touched {info x : EvThreadInfo ι κ τ} {i : ι} (hinfo : info.Sound i)
    (h : info.Touched i x) : x.Sound i := by
  cases h with
  | signal =>
      rcases info.signal_cases with ⟨hphase, heq⟩ | ⟨_, heq⟩
      · rw [heq]
        refine ⟨fun hm => ?_, fun hp => nomatch hp⟩
        have := hinfo.mutex_inside hm
        rw [hphase] at this
        cases this
      · rwa [heq]
  | lock ht hfree =>
      refine ⟨fun hm => ?_, hinfo.tested_cause⟩
      exact absurd (Option.some.inj hm) ht
  | unlock hheld hmutex hphase hcause =>
      refine ⟨fun hm => ?_, fun hp => ?_⟩
      · rw [hmutex] at hm
        cases hm
      · rw [hphase] at hp
        exact hcause (hinfo.tested_cause hp)

/-- In every run in which `pthread_cond_wait` returns to a worker only if it has a task or is to
    exit, no worker locks a mutex that it holds. -/
theorem threadPool_noSelfLock (order : List ι) (s : EvThreadPool ι κ τ)
    (hs : Reachable ((threadPool order).restrict WokenForCause) s) (i : ι) : ¬ s.SelfLock i := by
  have hsound : s.Held ∧ ∀ i, (s.infos i).Sound i := by
    refine hs.invariant (fun s => s.Held ∧ ∀ i, (s.infos i).Sound i) ?_ ?_
    · refine ⟨EvThreadPool.Held.init order, fun i => ?_⟩
      exact ⟨fun hm => (nomatch hm), fun hp => nomatch hp⟩
    · rintro s a s' ⟨hheld, hinfos⟩ hstep
      obtain ⟨hcause, hstep⟩ := System.restrict_step.1 hstep
      refine ⟨hheld.step hstep, fun j => ?_⟩
      rcases threadPool_stepOn hheld hstep with heq | ⟨k, x, heq, hx⟩
      · rw [heq]
        exact hinfos j
      · rw [heq]
        by_cases hj : j = k
        · subst hj
          rw [Function.update_self]
          rcases hx with ⟨rfl, hworker⟩ | htouched
          · exact (hinfos j).worker hcause hworker
          · exact (hinfos j).touched htouched
        · rw [Function.update_of_ne hj]
          exact hinfos j
  rintro ⟨hphase, hmutex⟩
  have := (hsound.2 i).mutex_inside hmutex
  rw [hphase] at this
  cases this

/-! ## Self-locking -/

/-- A worker that is woken without a cause locks its mutex twice. -/
theorem selfLock_of_woken {order : List ι} {s : EvThreadPool ι κ τ} {i : ι}
    (hphase : (s.infos i).phase = .woken) (hfree : (s.infos i).mutex = none)
    (hfreed : (s.infos i).freed = false) (htasks : (s.infos i).tasks = [])
    (hstatus : (s.infos i).status = 0) :
    ∃ s', (threadPool order).run s [.worker i, .worker i] = some s' ∧ s'.SelfLock i := by
  obtain ⟨x, hx⟩ : ∃ x : EvThreadInfo ι κ τ,
      x = { s.infos i with mutex := some (.worker i), phase := .tested } := ⟨_, rfl⟩
  have hrelock : (s.infos i).workerStep i = some x := by
    simp [EvThreadInfo.workerStep, hphase, EvThreadInfo.lock, hfree, hfreed, hx]
  have hcontinue : ((s.set i x).infos i).workerStep i = some { x with phase := .top } := by
    simp [EvThreadPool.set, EvThreadInfo.workerStep, hx, htasks, hstatus]
  refine ⟨(s.set i x).set i { x with phase := .top }, ?_, ?_⟩
  · simp only [System.run, threadPool, hrelock, Option.map_some, Option.bind_some, hcontinue]
  · simp [EvThreadPool.SelfLock, EvThreadPool.set, hx]

/-- Nobody gets it out of there: its `struct ev_thread_info` does not change any more, so no task is
    added and the pool is not destroyed. -/
theorem selfLock_forever {order : List ι} {s s' : EvThreadPool ι κ τ}
    (hs : Reachable (threadPool order) s) {i : ι} (h : s.SelfLock i) {as : List (PoolAction ι κ τ)}
    (hrun : (threadPool order).run s as = some s') : s'.infos i = s.infos i := by
  induction as generalizing s with
  | nil =>
      cases hrun
      rfl
  | cons a as ih =>
      obtain ⟨t, ht, hrest⟩ := Option.bind_eq_some_iff.1 hrun
      have hsame : t.infos i = s.infos i := by
        rcases threadPool_stepOn (EvThreadPool.Held.of_reachable hs) ht with heq | ⟨k, x, heq, hx⟩
        · rw [heq]
        · rw [heq]
          by_cases hk : i = k
          · subst hk
            obtain ⟨hphase, hmutex⟩ := h
            rw [Function.update_self]
            rcases hx with ⟨_, hworker⟩ | htouched
            · simp [EvThreadInfo.workerStep, hphase, EvThreadInfo.lock, hmutex] at hworker
            · cases htouched with
              | signal =>
                  rcases (s.infos i).signal_cases with ⟨hblocked, _⟩ | ⟨_, hsame⟩
                  · rw [hphase] at hblocked
                    cases hblocked
                  · exact hsame
              | lock ht hfree =>
                  rw [hmutex] at hfree
                  cases hfree
              | unlock hheld => exact absurd hmutex hheld
          · rw [Function.update_of_ne hk]
      have hagain : t.SelfLock i := by
        unfold EvThreadPool.SelfLock
        rw [hsame]
        exact h
      rw [ih (hs.step a ht) hagain hrest, hsame]

end Sections

/-- One worker: a task is added and taken, another one wakes it from its wait, and the pool is
    destroyed. -/
theorem threadPool_noSelfLock_run :
    ∃ s : EvThreadPool Unit Unit Nat,
      Reachable ((threadPool [()]).restrict WokenForCause) s ∧ s.destroyer = .done ∧
        ∀ i, ¬ s.SelfLock i := by
  have hrun : (((threadPool [()]).restrict WokenForCause).run
      (threadPool [()]).init
      ([.add () () 1, .adder (), .adder (), .adder (), .worker (), .worker (), .worker (), .worker (),
        .worker (), .worker (), .add () () 2, .adder (), .adder (), .adder (), .worker (), .worker (),
        .worker (), .worker (), .worker (), .destroyer, .destroyer, .destroyer, .destroyer, .worker (),
        .worker (), .destroyer, .destroyer, .destroyer, .destroyer] :
        List (PoolAction Unit Unit Nat))).map EvThreadPool.destroyer = some .done := by decide +kernel
  obtain ⟨s, hs, hdone⟩ := Option.map_eq_some_iff.1 hrun
  have hreach : Reachable ((threadPool [()]).restrict WokenForCause) s := Reachable.init.run hs
  exact ⟨s, hreach, hdone, threadPool_noSelfLock [()] s hreach⟩

/-- A worker that wakes by itself, and one that gets the signal for a task it has already done. -/
theorem threadPool_selfLock :
    (¬ ∀ (s : EvThreadPool Unit Unit Nat), Reachable (threadPool [()]) s → ∀ i, ¬ s.SelfLock i) ∧
    ∃ s : EvThreadPool Unit Unit Nat, (threadPool [()]).run (threadPool [()]).init
      [.add () () 1, .adder (), .adder (), .worker (), .worker (), .worker (), .worker (), .worker (),
        .worker (), .adder (), .worker (), .worker ()] = some s ∧ s.SelfLock () := by
  have hwake : ((threadPool [()]).run (threadPool [()]).init
      ([.worker (), .worker (), .wake (), .worker (), .worker ()] : List (PoolAction Unit Unit Nat))).map
      (fun s => ((s.infos ()).phase, (s.infos ()).mutex)) = some (.top, some (.worker ())) := by
    decide +kernel
  have hlate : ((threadPool [()]).run (threadPool [()]).init
      ([.add () () 1, .adder (), .adder (), .worker (), .worker (), .worker (), .worker (),
        .worker (), .worker (), .adder (), .worker (), .worker ()] :
        List (PoolAction Unit Unit Nat))).map
      (fun s => ((s.infos ()).phase, (s.infos ()).mutex)) = some (.top, some (.worker ())) := by
    decide +kernel
  constructor
  · intro h
    obtain ⟨s, hs, heq⟩ := Option.map_eq_some_iff.1 hwake
    exact h s (Reachable.init.run hs) () ⟨congrArg Prod.fst heq, congrArg Prod.snd heq⟩
  · obtain ⟨s, hs, heq⟩ := Option.map_eq_some_iff.1 hlate
    exact ⟨s, hs, congrArg Prod.fst heq, congrArg Prod.snd heq⟩

/-! ## What the functions can do -/

section Inversion

variable {ι κ τ : Type} [DecidableEq ι]

/-- All that a step of `ev_task_info_add` can do. -/
inductive EvThreadPool.Adds [DecidableEq κ] (s : EvThreadPool ι κ τ) (k : κ) :
    EvThreadPool ι κ τ → Prop
  | lock {i : ι} {task : τ} {x : EvThreadInfo ι κ τ} (hphase : s.adder k = .called i task)
      (hx : (s.infos i).lock (.adder k) = some x) :
      s.Adds k ((s.set i x).moveAdder k (.locked i task))
  | append {i : ι} {task : τ} (hphase : s.adder k = .locked i task) :
      s.Adds k ((s.set i { s.infos i with
        tasks := (s.infos i).tasks ++ [task]
        mutex := none }).moveAdder k (.added i))
  | signal {i : ι} (hphase : s.adder k = .added i) :
      s.Adds k ((s.set i (s.infos i).signal).moveAdder k .out)

theorem EvThreadPool.Adds.of_step [DecidableEq κ] {s s' : EvThreadPool ι κ τ} {k : κ}
    (h : s.adderStep k = some s') : s.Adds k s' := by
  unfold EvThreadPool.adderStep at h
  split at h
  · cases h
  · next hphase =>
      obtain ⟨x, hx, rfl⟩ := Option.map_eq_some_iff.1 h
      exact .lock hphase hx
  · next hphase =>
      cases h
      exact .append hphase
  · next hphase =>
      cases h
      exact .signal hphase

/-- All that a step of `ev_thread_pool_destroy` can do: the first loop locks, drops the list and
    signals, the second one locks, frees or unlocks, and signals. -/
inductive EvThreadPool.Destroys (order : List ι) (s : EvThreadPool ι κ τ) :
    EvThreadPool ι κ τ → Prop
  | start (hphase : s.destroyer = .out) : s.Destroys order (s.moveDestroyer (.sweep order))
  | turn (hphase : s.destroyer = .sweep []) : s.Destroys order (s.moveDestroyer (.reap order))
  | lock {i : ι} {rest : List ι} {x : EvThreadInfo ι κ τ}
      (hphase : s.destroyer = .sweep (i :: rest)) (hx : (s.infos i).lock .destroyer = some x) :
      s.Destroys order ((s.set i x).moveDestroyer (.sweeping i rest))
  | drop {i : ι} {rest : List ι} (hphase : s.destroyer = .sweeping i rest) :
      s.Destroys order ((s.set i { s.infos i with
        status := (s.infos i).status + 1
        tasks := []
        mutex := none }).moveDestroyer (.swept i rest))
  | signal {i : ι} {rest : List ι} (hphase : s.destroyer = .swept i rest) :
      s.Destroys order ((s.set i (s.infos i).signal).moveDestroyer (.sweep rest))
  | finish (hphase : s.destroyer = .reap []) : s.Destroys order (s.moveDestroyer .done)
  | relock {i : ι} {rest : List ι} {x : EvThreadInfo ι κ τ}
      (hphase : s.destroyer = .reap (i :: rest)) (hx : (s.infos i).lock .destroyer = some x) :
      s.Destroys order ((s.set i x).moveDestroyer (.reaping i rest))
  | free {i : ι} {rest : List ι} (hphase : s.destroyer = .reaping i rest)
      (hstatus : (s.infos i).status = 2) :
      s.Destroys order ((s.set i { s.infos i with mutex := none, freed := true }).moveDestroyer
        (.reap rest))
  | unlock {i : ι} {rest : List ι} (hphase : s.destroyer = .reaping i rest)
      (hstatus : (s.infos i).status ≠ 2) :
      s.Destroys order ((s.set i { s.infos i with mutex := none }).moveDestroyer (.reaped i rest))
  | resignal {i : ι} {rest : List ι} (hphase : s.destroyer = .reaped i rest) :
      s.Destroys order ((s.set i (s.infos i).signal).moveDestroyer (.reap (i :: rest)))

theorem EvThreadPool.Destroys.of_step {order : List ι} {s s' : EvThreadPool ι κ τ}
    (h : s.destroyerStep order = some s') : s.Destroys order s' := by
  unfold EvThreadPool.destroyerStep at h
  split at h
  · next hphase =>
      cases h
      exact .start hphase
  · next hphase =>
      cases h
      exact .turn hphase
  · next hphase =>
      obtain ⟨x, hx, rfl⟩ := Option.map_eq_some_iff.1 h
      exact .lock hphase hx
  · next hphase =>
      cases h
      exact .drop hphase
  · next hphase =>
      cases h
      exact .signal hphase
  · next hphase =>
      cases h
      exact .finish hphase
  · next hphase =>
      obtain ⟨x, hx, rfl⟩ := Option.map_eq_some_iff.1 h
      exact .relock hphase hx
  · next hphase =>
      split at h
      · next hstatus =>
          cases h
          exact .free hphase hstatus
      · next hstatus =>
          cases h
          exact .unlock hphase hstatus
  · next hphase =>
      cases h
      exact .resignal hphase
  · cases h

end Inversion

end Ryze
