import Ryze.Ev.ThreadPool

set_option autoImplicit false

/-! # What becomes of the tasks

The thread pool of `ev_thread_pool.cc` with its history: the tasks that were added to each worker's
list, those that were taken out of it, and those whose `func` and `callback` have returned. Whatever
the threads do, in whatever order: a worker starts the tasks of its own list, each once and in the
order in which they were added, and only `ev_thread_pool_destroy` drops any. -/

namespace Ryze

open Mutexes Transition

/-- What became of a task that was taken out of a list. -/
inductive TaskFate
  /-- its worker calls `func` -/
  | started
  /-- `ev_thread_pool_destroy` freed it -/
  | dropped
deriving DecidableEq, Repr

structure PoolHistory (ι κ τ : Type) where
  pool : EvThreadPool ι κ τ
  added : ι → List τ
  taken : ι → List (τ × TaskFate)
  finished : ι → List τ

/-- The tasks that a worker has started. -/
def startedOf {τ : Type} (taken : List (τ × TaskFate)) : List τ :=
  (taken.filter fun p => p.2 = .started).map Prod.fst

/-- The task a worker is at. -/
def TaskPhase.inHand {τ : Type} : TaskPhase τ → List τ
  | .running task => [task]
  | _ => []

section Steps

variable {ι κ τ : Type} [DecidableEq ι]

/-- What is only at `i`. -/
def only {β : Type} (i : ι) (l : List β) : ι → List β := Function.update (fun _ => []) i l

theorem only_self {β : Type} (i : ι) (l : List β) : only i l i = l := Function.update_self ..

theorem only_of_ne {β : Type} {i j : ι} (h : j ≠ i) (l : List β) : only i l j = [] :=
  Function.update_of_ne h ..

namespace EvThreadPool

/-- What `ev_task_info_add` puts at the end of a list. -/
def addedBy (s : EvThreadPool ι κ τ) : PoolAction ι κ τ → ι → List τ
  | .adder k =>
    match s.adder k with
    | .locked i task => only i [task]
    | _ => fun _ => []
  | _ => fun _ => []

/-- What a worker or `ev_thread_pool_destroy` takes out. -/
def takenBy (s : EvThreadPool ι κ τ) : PoolAction ι κ τ → ι → List (τ × TaskFate)
  | .worker i => only i (match (s.infos i).phase, (s.infos i).tasks with
    | .tested, task :: _ => [(task, .started)]
    | _, _ => [])
  | .destroyer =>
    match s.destroyer with
    | .sweeping i _ => only i ((s.infos i).tasks.map (·, .dropped))
    | _ => fun _ => []
  | _ => fun _ => []

/-- The task whose `func` and `callback` have returned. -/
def finishedBy (s : EvThreadPool ι κ τ) : PoolAction ι κ τ → ι → List τ
  | .worker i => only i (s.infos i).phase.inHand
  | _ => fun _ => []

end EvThreadPool

variable [DecidableEq κ]

def PoolHistory.step (order : List ι) (s : PoolHistory ι κ τ) (a : PoolAction ι κ τ) :
    Option (PoolHistory ι κ τ) :=
  ((threadPool order).step s.pool a).map fun pool => {
    pool := pool
    added := fun i => s.added i ++ s.pool.addedBy a i
    taken := fun i => s.taken i ++ s.pool.takenBy a i
    finished := fun i => s.finished i ++ s.pool.finishedBy a i }

def poolHistory (order : List ι) : System (PoolHistory ι κ τ) (PoolAction ι κ τ) where
  init := ⟨(threadPool order).init, fun _ => [], fun _ => [], fun _ => []⟩
  step := PoolHistory.step order

/-! ## What a step takes and leaves -/

namespace EvThreadPool

variable {order : List ι} {s s' : EvThreadPool ι κ τ}

omit [DecidableEq κ] in
theorem set_self (s : EvThreadPool ι κ τ) (i : ι) (x : EvThreadInfo ι κ τ) :
    (s.set i x).infos i = x := Function.update_self ..

omit [DecidableEq κ] in
theorem set_of_ne (s : EvThreadPool ι κ τ) {i j : ι} (h : j ≠ i) (x : EvThreadInfo ι κ τ) :
    (s.set i x).infos j = s.infos j := Function.update_of_ne h ..

/-- What is taken out of a list and what is left in it is what was in it and what is added. -/
def Flows (s s' : EvThreadPool ι κ τ) (a : PoolAction ι κ τ) (i : ι) : Prop :=
  (s.takenBy a i).map Prod.fst ++ (s'.infos i).tasks = (s.infos i).tasks ++ s.addedBy a i ∧
    (s.infos i).phase.inHand ++ startedOf (s.takenBy a i)
      = s.finishedBy a i ++ (s'.infos i).phase.inHand

omit [DecidableEq κ] in
/-- Nothing happens to a list that is left alone. -/
theorem Flows.of_same {a : PoolAction ι κ τ} {j : ι}
    (htasks : (s'.infos j).tasks = (s.infos j).tasks)
    (hhand : (s'.infos j).phase.inHand = (s.infos j).phase.inHand) (hadded : s.addedBy a j = [])
    (htaken : s.takenBy a j = []) (hfinished : s.finishedBy a j = []) : s.Flows s' a j := by
  rw [Flows, htasks, hhand, hadded, htaken, hfinished]
  exact ⟨(List.append_nil _).symm, List.append_nil _⟩

omit [DecidableEq κ] in
theorem Flows.of_set {a : PoolAction ι κ τ} {i : ι} {x : EvThreadInfo ι κ τ}
    (hinfos : s'.infos = (s.set i x).infos)
    (htasks : (s.takenBy a i).map Prod.fst ++ x.tasks = (s.infos i).tasks ++ s.addedBy a i)
    (hhand : (s.infos i).phase.inHand ++ startedOf (s.takenBy a i)
      = s.finishedBy a i ++ x.phase.inHand) : s.Flows s' a i := by
  rw [Flows, hinfos, set_self]
  exact ⟨htasks, hhand⟩

omit [DecidableEq κ] in
/-- A worker does something to its own list only. -/
theorem flows_worker_of_ne {i j : ι} (hj : j ≠ i) (x : EvThreadInfo ι κ τ) :
    s.Flows (s.set i x) (.worker i) j :=
  Flows.of_same (by rw [set_of_ne s hj]) (by rw [set_of_ne s hj]) rfl (only_of_ne hj _)
    (only_of_ne hj _)

omit [DecidableEq κ] in
theorem flows_worker {i : ι} {x : EvThreadInfo ι κ τ} (h : (s.infos i).workerStep i = some x) :
    s.Flows (s.set i x) (.worker i) i := by
  have hadded : s.addedBy (.worker i) i = [] := rfl
  rw [Flows, set_self, hadded, finishedBy, takenBy, only_self, only_self, List.append_nil]
  unfold EvThreadInfo.workerStep at h
  split at h
  · next hphase =>
      obtain ⟨y, hy, rfl⟩ := Option.map_eq_some_iff.1 h
      obtain ⟨_, rfl⟩ := EvThreadInfo.lock_eq_some hy
      simp only [hphase]
      exact ⟨rfl, rfl⟩
  · next hphase =>
      split at h
      · cases h
        simp only [hphase]
        exact ⟨rfl, rfl⟩
      · cases h
        simp only [hphase]
        exact ⟨rfl, rfl⟩
  · cases h
  · next hphase =>
      obtain ⟨y, hy, rfl⟩ := Option.map_eq_some_iff.1 h
      obtain ⟨_, rfl⟩ := EvThreadInfo.lock_eq_some hy
      simp only [hphase]
      exact ⟨rfl, rfl⟩
  · next hphase =>
      split at h
      · next htasks =>
          split at h
          · cases h
            simp only [hphase, htasks]
            exact ⟨rfl, rfl⟩
          · cases h
            simp only [hphase, htasks]
            exact ⟨rfl, rfl⟩
      · next task tasks htasks =>
          -- the first task goes from the list into the worker's hand
          cases h
          simp only [hphase, htasks]
          exact ⟨rfl, rfl⟩
  · next hphase =>
      cases h
      simp only [hphase]
      exact ⟨rfl, rfl⟩
  · next hphase =>
      cases h
      simp only [hphase]
      exact ⟨rfl, rfl⟩
  · cases h

omit [DecidableEq ι] [DecidableEq κ] in
theorem signal_same (info : EvThreadInfo ι κ τ) :
    info.signal.tasks = info.tasks ∧ info.signal.phase.inHand = info.phase.inHand := by
  rcases info.signal_cases with ⟨hphase, heq⟩ | ⟨_, heq⟩
  · rw [heq, hphase]
    exact ⟨rfl, rfl⟩
  · rw [heq]
    exact ⟨rfl, rfl⟩

omit [DecidableEq κ] in
/-- A signal, a lock and an unlock leave the lists alone. -/
theorem flows_set {a : PoolAction ι κ τ} {i j : ι} {x : EvThreadInfo ι κ τ}
    (hinfos : s'.infos = (s.set i x).infos) (htasks : x.tasks = (s.infos i).tasks)
    (hhand : x.phase.inHand = (s.infos i).phase.inHand) (hadded : s.addedBy a j = [])
    (htaken : s.takenBy a j = []) (hfinished : s.finishedBy a j = []) : s.Flows s' a j := by
  by_cases hj : j = i
  · subst hj
    refine Flows.of_same ?_ ?_ hadded htaken hfinished
    · rw [hinfos, set_self, htasks]
    · rw [hinfos, set_self, hhand]
  · refine Flows.of_same ?_ ?_ hadded htaken hfinished
    · rw [hinfos, set_of_ne s hj]
    · rw [hinfos, set_of_ne s hj]

theorem flows_adder {k : κ} (h : s.adderStep k = some s') (j : ι) :
    s.Flows s' (.adder k) j := by
  cases Adds.of_step h with
  | lock hphase hx =>
      obtain ⟨_, rfl⟩ := EvThreadInfo.lock_eq_some hx
      exact flows_set rfl rfl rfl (by simp only [addedBy, hphase]) rfl rfl
  | @append i task hphase =>
      by_cases hj : j = i
      · subst hj
        refine Flows.of_set rfl ?_ (List.append_nil _)
        simp only [addedBy, takenBy, hphase, only_self]
        rfl
      · refine Flows.of_same ?_ ?_ ?_ rfl rfl
        · exact congrArg EvThreadInfo.tasks (set_of_ne s hj _)
        · exact congrArg (fun x => x.phase.inHand) (set_of_ne s hj _)
        · simp only [addedBy, hphase, only_of_ne hj]
  | signal hphase =>
      exact flows_set rfl (signal_same _).1 (signal_same _).2 (by simp only [addedBy, hphase]) rfl
        rfl

omit [DecidableEq κ] in
theorem flows_destroyer (h : s.destroyerStep order = some s') (j : ι) :
    s.Flows s' .destroyer j := by
  cases Destroys.of_step h with
  | start hphase | turn hphase | finish hphase =>
      exact Flows.of_same rfl rfl rfl (by simp only [takenBy, hphase]) rfl
  | lock hphase hx | relock hphase hx =>
      obtain ⟨_, rfl⟩ := EvThreadInfo.lock_eq_some hx
      exact flows_set rfl rfl rfl rfl (by simp only [takenBy, hphase]) rfl
  | @drop i rest hphase =>
      by_cases hj : j = i
      · subst hj
        -- the whole list is dropped
        have hdropped : startedOf ((s.infos j).tasks.map (·, TaskFate.dropped)) = [] := by
          simp [startedOf, List.filter_map]
        refine Flows.of_set rfl ?_ ?_
        · simp only [addedBy, takenBy, hphase, only_self, List.append_nil, List.map_map]
          exact List.map_id _
        · simp only [takenBy, hphase, only_self, hdropped, finishedBy]
          exact List.append_nil _
      · refine Flows.of_same ?_ ?_ rfl ?_ rfl
        · exact congrArg EvThreadInfo.tasks (set_of_ne s hj _)
        · exact congrArg (fun x => x.phase.inHand) (set_of_ne s hj _)
        · simp only [takenBy, hphase, only_of_ne hj]
  | free hphase | unlock hphase =>
      exact flows_set rfl rfl rfl rfl (by simp only [takenBy, hphase]) rfl
  | signal hphase | resignal hphase =>
      exact flows_set rfl (signal_same _).1 (signal_same _).2 rfl (by simp only [takenBy, hphase])
        rfl

theorem flows_step {a : PoolAction ι κ τ} (h : (threadPool order).step s a = some s') (j : ι) :
    s.Flows s' a j := by
  cases a with
  | worker i =>
      obtain ⟨x, hx, rfl⟩ := Option.map_eq_some_iff.1 h
      by_cases hj : j = i
      · subst hj
        exact flows_worker hx
      · exact flows_worker_of_ne hj x
  | wake i =>
      unfold threadPool at h
      simp only at h
      split at h
      · next hphase =>
          cases h
          exact flows_set rfl rfl (by rw [hphase]; rfl) rfl rfl rfl
      · cases h
  | add k i task =>
      unfold threadPool at h
      simp only at h
      split at h
      · cases h
        exact Flows.of_same rfl rfl rfl rfl rfl
      · cases h
  | adder k => exact flows_adder h j
  | destroyer => exact flows_destroyer h j

/-- `ev_thread_pool_destroy` is called once; before that nothing is dropped. -/
theorem out_of_step {a : PoolAction ι κ τ} (h : (threadPool order).step s a = some s')
    (hout : s'.destroyer = .out) :
    s.destroyer = .out ∧ ∀ i, ∀ p ∈ s.takenBy a i, p.2 = .started := by
  cases a with
  | worker i =>
      obtain ⟨x, hx, rfl⟩ := Option.map_eq_some_iff.1 h
      refine ⟨hout, fun j p hp => ?_⟩
      by_cases hj : j = i
      · subst hj
        rw [takenBy, only_self] at hp
        split at hp
        · rw [List.mem_singleton.1 hp]
        · cases hp
      · rw [takenBy, only_of_ne hj] at hp
        cases hp
  | wake i =>
      unfold threadPool at h
      simp only at h
      split at h
      · cases h
        exact ⟨hout, fun j p hp => by cases hp⟩
      · cases h
  | add k i task =>
      unfold threadPool at h
      simp only at h
      split at h
      · cases h
        exact ⟨hout, fun j p hp => by cases hp⟩
      · cases h
  | adder k =>
      refine ⟨?_, fun j p hp => by cases hp⟩
      cases Adds.of_step (show s.adderStep k = some s' from h) with
      | lock | append | signal => exact hout
  | destroyer =>
      -- wherever it goes on, it is inside the call
      cases Destroys.of_step (show s.destroyerStep order = some s' from h) <;> cases hout

end EvThreadPool

/-! ## In every run -/

/-- The tasks of each list: those taken out are the first that were added, the others are in it; and
    those that were started have returned, but for the one its worker is at. -/
structure PoolHistory.Inv (s : PoolHistory ι κ τ) : Prop where
  added_eq : ∀ i, s.added i = (s.taken i).map Prod.fst ++ (s.pool.infos i).tasks
  started_eq : ∀ i, startedOf (s.taken i) = s.finished i ++ (s.pool.infos i).phase.inHand
  not_dropped : s.pool.destroyer = .out → ∀ i, ∀ p ∈ s.taken i, p.2 = .started

theorem startedOf_append {τ : Type} (l m : List (τ × TaskFate)) :
    startedOf (l ++ m) = startedOf l ++ startedOf m := by
  rw [startedOf, List.filter_append, List.map_append, startedOf, startedOf]

theorem PoolHistory.Inv.step {order : List ι} {s s' : PoolHistory ι κ τ} {a : PoolAction ι κ τ}
    (h : s.Inv) (hstep : s.step order a = some s') : s'.Inv := by
  obtain ⟨pool, hpool, rfl⟩ := Option.map_eq_some_iff.1 hstep
  refine ⟨?_, ?_, ?_⟩
  · intro i
    obtain ⟨hflow, _⟩ := EvThreadPool.flows_step hpool i
    simp only
    rw [h.added_eq, List.map_append, List.append_assoc, List.append_assoc, hflow]
  · intro i
    obtain ⟨_, hflow⟩ := EvThreadPool.flows_step hpool i
    simp only
    rw [startedOf_append, h.started_eq, List.append_assoc, List.append_assoc, hflow]
  · intro hout i p hp
    obtain ⟨hbefore, hstarted⟩ := EvThreadPool.out_of_step hpool hout
    rcases List.mem_append.1 hp with hold | hnew
    · exact h.not_dropped hbefore i p hold
    · exact hstarted i p hnew

theorem PoolHistory.Inv.of_reachable {order : List ι} {s : PoolHistory ι κ τ}
    (hs : Reachable (poolHistory order) s) : s.Inv :=
  hs.invariant PoolHistory.Inv
    ⟨fun _ => rfl, fun _ => rfl, fun _ _ _ hp => absurd hp List.not_mem_nil⟩
    fun _ _ _ h hstep => h.step hstep

/-- **In order, once.** In every run a worker starts the tasks that were added to its list, each once
    and in the order in which they were added, unless `ev_thread_pool_destroy` drops them; what it
    has started has returned, but for the task it is at. -/
theorem threadPool_tasks {order : List ι} {s : PoolHistory ι κ τ}
    (hs : Reachable (poolHistory order) s) (i : ι) :
    s.added i = (s.taken i).map Prod.fst ++ (s.pool.infos i).tasks ∧
    startedOf (s.taken i) = s.finished i ++ (s.pool.infos i).phase.inHand ∧
    (s.pool.destroyer = .out →
      s.added i = s.finished i ++ (s.pool.infos i).phase.inHand ++ (s.pool.infos i).tasks) := by
  have hinv := PoolHistory.Inv.of_reachable hs
  refine ⟨hinv.added_eq i, hinv.started_eq i, fun hout => ?_⟩
  have hall : (s.taken i).filter (fun p => p.2 = .started) = s.taken i :=
    List.filter_eq_self.2 fun p hp => decide_eq_true (hinv.not_dropped hout i p hp)
  rw [hinv.added_eq, ← hinv.started_eq, startedOf, hall]

end Steps

/-- Three tasks are added; the worker has done the first and is at the second. -/
theorem threadPool_tasks_three : ∃ s : PoolHistory Unit Unit Nat,
    Reachable (poolHistory [()]) s ∧ s.added () = [1, 2, 3] ∧ s.finished () = [1] ∧
    s.added () = s.finished () ++ (s.pool.infos ()).phase.inHand ++ (s.pool.infos ()).tasks := by
  have hs := Reachable.init.run (show (poolHistory [()]).run (poolHistory [()]).init
    ([.add () () 1, .adder (), .adder (), .adder (), .add () () 2, .adder (), .adder (), .adder (),
      .worker (), .worker (), .worker (), .add () () 3, .adder (), .adder (), .worker (), .worker (),
      .worker (), .worker ()] : List (PoolAction Unit Unit Nat)) = some _ from rfl)
  exact ⟨_, hs, rfl, rfl, (threadPool_tasks hs ()).2.2 rfl⟩

end Ryze
