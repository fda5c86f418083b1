import Ryze.Ev.TaskLinks
import Ryze.Ev.ThreadPoolSettling
import Ryze.Lib.Simulation

set_option autoImplicit false

/-! # The pointers and the lists

A pool with its pointers stands for a pool with lists: each `head` and `tail` holds a chain of the
tasks of its list, and each `struct ev_task_info` that is live belongs to one list, to one worker
that runs it, or to one thread that adds it. Both pools can always do the same steps; so no step goes
wrong, and all that is known of the lists holds of the code. -/

namespace Ryze

open CLib LinkChain Mutexes Ownership Transition

/-! ## Pools that stand for each other -/

section Represents

variable {τ : Type}

/-- The task at an address. -/
def taskAt (h : Heap (EvTaskInfo τ)) (a : Nat) : Option τ := (h.objs a).map EvTaskInfo.task

def nextAt (h : Heap (EvTaskInfo τ)) (a : Nat) : Option Nat := (h.objs a).bind EvTaskInfo.next

/-- The same place in `ev_task_info_func`, with related tasks. -/
inductive TaskPhase.Rel {α β : Type} (R : α → β → Prop) : TaskPhase α → TaskPhase β → Prop
  | top : Rel R .top .top
  | locked : Rel R .locked .locked
  | blocked : Rel R .blocked .blocked
  | woken : Rel R .woken .woken
  | tested : Rel R .tested .tested
  | running {a : α} {b : β} (h : R a b) : Rel R (.running a) (.running b)
  | exiting : Rel R .exiting .exiting
  | exited : Rel R .exited .exited

/-- The same place in `ev_task_info_add`. -/
inductive AddPhase.Rel {ι α β : Type} (R : α → β → Prop) : AddPhase ι α → AddPhase ι β → Prop
  | out : Rel R .out .out
  | called {i : ι} {a : α} {b : β} (h : R a b) : Rel R (.called i a) (.called i b)
  | locked {i : ι} {a : α} {b : β} (h : R a b) : Rel R (.locked i a) (.locked i b)
  | added {i : ι} : Rel R (.added i) (.added i)

/-- The task that is not in a list yet. -/
def AddPhase.inHand {ι α : Type} : AddPhase ι α → List α
  | .called _ a => [a]
  | .locked _ a => [a]
  | _ => []

/-- `task` stands at the address `a`. -/
def HoldsTask (h : Heap (EvTaskInfo τ)) (a : Nat) (task : τ) : Prop := taskAt h a = some task

theorem TaskPhase.Rel.frame {h h' : Heap (EvTaskInfo τ)} {p : TaskPhase Nat} {q : TaskPhase τ}
    (hpq : p.Rel (HoldsTask h) q) (hsame : ∀ a ∈ p.inHand, taskAt h' a = taskAt h a) :
    p.Rel (HoldsTask h') q := by
  cases hpq with
  | running htask => exact .running ((hsame _ (List.mem_singleton_self _)).trans htask)
  | _ => constructor

theorem AddPhase.Rel.frame {ι : Type} {h h' : Heap (EvTaskInfo τ)} {p : AddPhase ι Nat}
    {q : AddPhase ι τ} (hpq : p.Rel (HoldsTask h) q)
    (hsame : ∀ a ∈ p.inHand, taskAt h' a = taskAt h a) : p.Rel (HoldsTask h') q := by
  cases hpq with
  | called htask => exact .called ((hsame _ (List.mem_singleton_self _)).trans htask)
  | locked htask => exact .locked ((hsame _ (List.mem_singleton_self _)).trans htask)
  | _ => constructor

variable {ι κ : Type}

/-- The pointers of a thread stand for its list; `nodes` are the addresses of its tasks. -/
structure EvThreadLinks.Represents (h : Heap (EvTaskInfo τ)) (x : EvThreadLinks ι κ)
    (info : EvThreadInfo ι κ τ) (nodes : List Nat) : Prop where
  status_eq : x.status = info.status
  mutex_eq : x.mutex = info.mutex
  freed_eq : x.freed = info.freed
  queue : Queue (nextAt h) x.head x.tail nodes
  tasks_eq : nodes.map (taskAt h) = info.tasks.map some
  phase : x.phase.Rel (HoldsTask h) info.phase

/-- Who has a `struct ev_task_info`. -/
inductive TaskOwner (ι κ : Type)
  | list (i : ι)
  | worker (i : ι)
  | adder (k : κ)
deriving DecidableEq, Repr

def LinkedPool.owned (s : LinkedPool ι κ τ) (nodes : ι → List Nat) : TaskOwner ι κ → List Nat
  | .list i => nodes i
  | .worker i => (s.links i).phase.inHand
  | .adder k => (s.adder k).inHand

structure LinkedPool.Represents (s : LinkedPool ι κ τ) (t : EvThreadPool ι κ τ)
    (nodes : ι → List Nat) : Prop where
  links : ∀ i, (s.links i).Represents s.heap (t.infos i) (nodes i)
  adder : ∀ k, (s.adder k).Rel (HoldsTask s.heap) (t.adder k)
  /-- what is not in a list is not linked to anything -/
  unlinked : ∀ k, ∀ a ∈ (s.adder k).inHand, nextAt s.heap a = none
  destroyer_eq : s.destroyer = t.destroyer
  shares : Shares s.heap (s.owned nodes)

/-- What a thread has is not touched. -/
theorem EvThreadLinks.Represents.frame {h h' : Heap (EvTaskInfo τ)} {x : EvThreadLinks ι κ}
    {info : EvThreadInfo ι κ τ} {nodes : List Nat} (hx : x.Represents h info nodes)
    (hnodes : ∀ a ∈ nodes, h'.objs a = h.objs a)
    (hhand : ∀ a ∈ x.phase.inHand, h'.objs a = h.objs a) : x.Represents h' info nodes where
  status_eq := hx.status_eq
  mutex_eq := hx.mutex_eq
  freed_eq := hx.freed_eq
  queue := hx.queue.congr fun a ha => by rw [nextAt, nextAt, hnodes a ha]
  tasks_eq := by
    rw [← hx.tasks_eq]
    exact List.map_congr_left fun a ha => by rw [taskAt, taskAt, hnodes a ha]
  phase := hx.phase.frame fun a ha => by rw [taskAt, taskAt, hhand a ha]

end Represents

/-! ## One thread -/

section Thread

variable {ι κ τ : Type} {h : Heap (EvTaskInfo τ)} {x : EvThreadLinks ι κ}
  {info : EvThreadInfo ι κ τ} {nodes : List Nat}

namespace EvThreadLinks

theorem Represents.head_cases (hx : x.Represents h info nodes) :
    (x.head = none ∧ nodes = [] ∧ info.tasks = []) ∨
    ∃ a l task tasks, x.head = some a ∧ nodes = a :: l ∧ info.tasks = task :: tasks ∧
      HoldsTask h a task ∧ l.map (taskAt h) = tasks.map some := by
  cases nodes with
  | nil => exact Or.inl ⟨hx.queue.chain, rfl, List.map_eq_nil_iff.1 hx.tasks_eq.symm⟩
  | cons a l =>
      have htasks := hx.tasks_eq
      cases hlist : info.tasks with
      | nil =>
          rw [hlist] at htasks
          cases htasks
      | cons task tasks =>
          rw [hlist] at htasks
          obtain ⟨htask, htasks⟩ := List.cons.inj htasks
          exact Or.inr ⟨a, l, task, tasks, hx.queue.chain.1, rfl, rfl, htask, htasks⟩

theorem lock_rel (hx : x.Represents h info nodes) (t : PoolThread ι κ) :
    (x.lock t).Rel (fun y info' => y.Represents h info' nodes ∧ y.phase = x.phase) (info.lock t) := by
  unfold EvThreadLinks.lock EvThreadInfo.lock
  rw [hx.mutex_eq, hx.freed_eq]
  split
  · exact .some ⟨⟨hx.status_eq, rfl, rfl, hx.queue, hx.tasks_eq, hx.phase⟩, rfl⟩
  · exact .none

theorem Represents.signal (hx : x.Represents h info nodes) :
    x.signal.Represents h info.signal nodes ∧ x.signal.phase.inHand = x.phase.inHand := by
  obtain ⟨status, head, tail, mutex, freed, p⟩ := x
  obtain ⟨status', tasks, mutex', freed', q⟩ := info
  have hphase := hx.phase
  simp only at hphase
  cases hphase with
  | blocked =>
      exact ⟨⟨hx.status_eq, hx.mutex_eq, hx.freed_eq, hx.queue, hx.tasks_eq, .woken⟩, rfl⟩
  | _ => exact ⟨hx, rfl⟩

/-- What a step of a worker does to its list and its hand. -/
inductive Effect (h : Heap (EvTaskInfo τ)) (x : EvThreadLinks ι κ) :
    List Nat → Heap (EvTaskInfo τ) → EvThreadLinks ι κ → List Nat → Prop
  | keep {nodes : List Nat} {y : EvThreadLinks ι κ} (hand : y.phase.inHand = x.phase.inHand) :
      Effect h x nodes h y nodes
  | take {a : Nat} {l : List Nat} {y : EvThreadLinks ι κ} (empty : x.phase.inHand = [])
      (hand : y.phase.inHand = [a]) : Effect h x (a :: l) h y l
  | free {a : Nat} {nodes : List Nat} {y : EvThreadLinks ι κ} (hand : x.phase.inHand = [a])
      (empty : y.phase.inHand = []) : Effect h x nodes (h.free (some a)) y nodes

/-- A worker frees only what it has in hand. -/
theorem Effect.frame {h' : Heap (EvTaskInfo τ)} {y : EvThreadLinks ι κ} {nodes' : List Nat}
    (heffect : Effect h x nodes h' y nodes') {a : Nat} (ha : a ∉ x.phase.inHand) :
    h'.objs a = h.objs a := by
  cases heffect with
  | free hand _ =>
      rw [hand] at ha
      exact Function.update_of_ne (List.ne_of_not_mem_cons ha) ..
  | _ => rfl

/-- A step with pointers that is a step with lists. -/
def StepRel (h : Heap (EvTaskInfo τ)) (x : EvThreadLinks ι κ) (nodes : List Nat)
    (r : CRun (Heap (EvTaskInfo τ) × EvThreadLinks ι κ)) (info : EvThreadInfo ι κ τ) : Prop :=
  ∃ h' y nodes', r = .ok (h', y) ∧ Effect h x nodes h' y nodes' ∧ y.Represents h' info nodes'

theorem StepRel.keep {y : EvThreadLinks ι κ} {info' : EvThreadInfo ι κ τ}
    (hy : y.Represents h info' nodes) (hhand : y.phase.inHand = x.phase.inHand) :
    StepRel h x nodes (.ok (h, y)) info' := ⟨h, y, nodes, rfl, .keep hhand, hy⟩

/-- A lock, and a step to `p`. -/
theorem lock_map_rel (hx : x.Represents h info nodes) (t : PoolThread ι κ) {p : TaskPhase Nat}
    {q : TaskPhase τ} (hp : p.Rel (HoldsTask h) q) (hhand : p.inHand = x.phase.inHand) :
    ((x.lock t).map fun y => (.ok (h, { y with phase := p }) : CRun _)).Rel (StepRel h x nodes)
      ((info.lock t).map fun y => { y with phase := q }) := by
  have hlock := lock_rel hx t
  cases hl : x.lock t with
  | none =>
      rw [hl] at hlock
      cases hr : info.lock t with
      | none => exact .none
      | some y =>
          rw [hr] at hlock
          cases hlock
  | some y =>
      rw [hl] at hlock
      cases hr : info.lock t with
      | none =>
          rw [hr] at hlock
          cases hlock
      | some info' =>
          rw [hr] at hlock
          cases hlock with
          | some hy =>
              exact .some (.keep ⟨hy.1.status_eq, hy.1.mutex_eq, hy.1.freed_eq, hy.1.queue,
                hy.1.tasks_eq, hp⟩ hhand)

theorem workerStep_rel (hx : x.Represents h info nodes)
    (hlive : ∀ a, a ∈ nodes ∨ a ∈ x.phase.inHand → ∃ o, h.objs a = some o)
    (happart : ∀ a ∈ x.phase.inHand, a ∉ nodes) (i : ι) :
    (x.workerStep h i).Rel (StepRel h x nodes) (info.workerStep i) := by
  have hcases := hx.head_cases
  have hphase := hx.phase
  have htop := lock_map_rel hx (.worker i) (.locked)
  have hwoken := lock_map_rel hx (.worker i) (.tested)
  obtain ⟨status, head, tail, mutex, freed, p⟩ := x
  obtain ⟨status', tasks, mutex', freed', q⟩ := info
  obtain rfl : status = status' := hx.status_eq
  simp only at hphase hcases
  cases hphase with
  | top => exact htop rfl
  | locked =>
      rcases hcases with ⟨rfl, rfl, rfl⟩ | ⟨a, l, task, tasks, rfl, rfl, rfl, -, -⟩
      · exact .some (.keep ⟨rfl, rfl, hx.freed_eq, hx.queue, hx.tasks_eq, .blocked⟩ rfl)
      · exact .some (.keep ⟨rfl, hx.mutex_eq, hx.freed_eq, hx.queue, hx.tasks_eq, .tested⟩ rfl)
  | blocked => exact .none
  | woken => exact hwoken rfl
  | tested =>
      rcases hcases with ⟨rfl, rfl, rfl⟩ | ⟨a, l, task, tasks, rfl, rfl, rfl, htask, htasks⟩
      · simp only [EvThreadLinks.workerStep, EvThreadInfo.workerStep]
        split
        · exact .some (.keep ⟨rfl, hx.mutex_eq, hx.freed_eq, hx.queue, hx.tasks_eq, .top⟩ rfl)
        · exact .some (.keep ⟨rfl, rfl, hx.freed_eq, hx.queue, hx.tasks_eq, .exiting⟩ rfl)
      · simp only [EvThreadLinks.workerStep, EvThreadInfo.workerStep]
        split
        · next hone =>
            obtain rfl : l = [] := hx.queue.head_eq_tail_iff.1 hone
            exact .some ⟨_, _, _, rfl, .take rfl rfl,
              ⟨rfl, rfl, hx.freed_eq, .empty, htasks, .running htask⟩⟩
        · next hmore =>
            obtain ⟨o, ho⟩ := hlive a (Or.inl List.mem_cons_self)
            have hnext : nextAt h a = o.next := by rw [nextAt, ho, Option.bind_some]
            have hqueue := hx.queue.dequeue fun hl => hmore (hx.queue.head_eq_tail_iff.2 hl)
            rw [hnext] at hqueue
            simp only [loadTask, ho, ok_bind]
            exact .some ⟨_, _, _, rfl, .take rfl rfl,
              ⟨rfl, rfl, hx.freed_eq, hqueue, htasks, .running htask⟩⟩
  | @running a task htask =>
      obtain ⟨o, ho⟩ := hlive a (Or.inr (List.mem_singleton_self a))
      have hrest : ∀ b ∈ nodes, (h.free (some a)).objs b = h.objs b := fun b hb =>
        Function.update_of_ne (fun hba : b = a =>
          happart a (List.mem_singleton_self a) (hba ▸ hb)) ..
      have htopped : EvThreadLinks.Represents h (⟨status, head, tail, mutex, freed, .top⟩ :
          EvThreadLinks ι κ) ⟨status, tasks, mutex', freed', .top⟩ nodes :=
        ⟨rfl, hx.mutex_eq, hx.freed_eq, hx.queue, hx.tasks_eq, .top⟩
      simp only [EvThreadLinks.workerStep, EvThreadInfo.workerStep, loadTask, ho, ok_bind, freeTask,
        Option.isSome_some, if_true]
      exact .some ⟨_, _, _, rfl, .free rfl rfl, htopped.frame hrest
        fun b hb => absurd hb List.not_mem_nil⟩
  | exiting =>
      exact .some (.keep ⟨rfl, hx.mutex_eq, hx.freed_eq, hx.queue, hx.tasks_eq, .exited⟩ rfl)
  | exited => exact .none

section Enqueue

variable {a : Nat} {task : τ}

theorem Represents.enqueue_empty (hx : x.Represents h info nodes) (hhead : x.head = none)
    (ha : HoldsTask h a task) (hnext : nextAt h a = none) :
    ({ x with head := some a, tail := some a, mutex := none } : EvThreadLinks ι κ).Represents h
      { info with tasks := info.tasks ++ [task], mutex := none } (nodes ++ [a]) := by
  have hnodes : nodes = [] := hx.queue.chain.eq_none_iff.1 hhead
  have htasks := hx.tasks_eq
  rw [hnodes] at htasks ⊢
  rw [List.map_eq_nil_iff.1 htasks.symm]
  exact ⟨hx.status_eq, rfl, hx.freed_eq, .single hnext, congrArg (fun b => [b]) ha, hx.phase⟩

/-- `tail` points to a task of the list. -/
theorem Represents.tail_mem (hx : x.Represents h info nodes) {b : Nat} (hhead : x.head = some b) :
    ∃ t, x.tail = some t ∧ t ∈ nodes := by
  have hne : nodes ≠ [] := fun hnil => by
    rw [hx.queue.chain.eq_none_iff.2 hnil] at hhead
    cases hhead
  exact ⟨_, hx.queue.tail_eq.trans (List.getLast?_eq_some_getLast hne), List.getLast_mem hne⟩

theorem Represents.enqueue (hx : x.Represents h info nodes) {t : Nat} (htail : x.tail = some t)
    (hlive : ∃ o, h.objs t = some o) (ha : HoldsTask h a task) (hnext : nextAt h a = none)
    (hnew : a ∉ nodes) (hta : t ≠ a) :
    ({ x with tail := some a, mutex := none } : EvThreadLinks ι κ).Represents
      (h.modify t fun o => { o with next := some a })
      { info with tasks := info.tasks ++ [task], mutex := none } (nodes ++ [a]) := by
  obtain ⟨o, ho⟩ := hlive
  have htask : ∀ b, taskAt (h.modify t fun o => { o with next := some a }) b = taskAt h b := by
    intro b
    by_cases hb : b = t
    · rw [hb, taskAt, taskAt, h.modify_self, Option.map_map]
      rfl
    · rw [taskAt, taskAt, h.modify_of_ne _ hb]
  have hsame : ∀ b, b ≠ t → nextAt (h.modify t fun o => { o with next := some a }) b = nextAt h b :=
    fun b hb => by rw [nextAt, nextAt, h.modify_of_ne _ hb]
  have hlinked : nextAt (h.modify t fun o => { o with next := some a }) t = some a := by
    rw [nextAt, h.modify_self, ho]
    rfl
  have hqueue := hx.queue
  rw [htail] at hqueue
  refine ⟨hx.status_eq, rfl, hx.freed_eq, hqueue.enqueue hnew hlinked
    ((hsame a (Ne.symm hta)).trans hnext) fun b _ hb => hsame b hb, ?_,
    hx.phase.frame fun b _ => htask b⟩
  rw [List.map_append, List.map_append, ← hx.tasks_eq]
  exact congrArg₂ (· ++ ·) (List.map_congr_left fun b _ => htask b)
    (congrArg (fun b => [b]) ((htask a).trans ha))

end Enqueue

/-! ### Freeing a list -/

theorem freeRounds_eq {n : Nat} {p : Option Nat} (hchain : Chain (nextAt h) p nodes)
    (hnodup : nodes.Nodup) (hlive : ∀ a ∈ nodes, ∃ o, h.objs a = some o) (hn : nodes.length < n) :
    cLoop freeRound n (h, p) = .ok (h.freeAll nodes) := by
  induction nodes generalizing h p n with
  | nil =>
      obtain ⟨n, rfl⟩ : ∃ m, n = m + 1 := ⟨n - 1, by omega⟩
      obtain rfl : p = none := hchain
      exact cLoop_exit rfl n
  | cons a l ih =>
      rw [List.length_cons] at hn
      obtain ⟨n, rfl⟩ : ∃ m, n = m + 1 := ⟨n - 1, by omega⟩
      obtain ⟨rfl, hrest⟩ := hchain
      obtain ⟨ha, hl⟩ := List.nodup_cons.1 hnodup
      obtain ⟨o, ho⟩ := hlive a List.mem_cons_self
      have hnext : nextAt h a = o.next := by rw [nextAt, ho, Option.bind_some]
      have hsame : ∀ b ∈ l, (h.free (some a)).objs b = h.objs b := fun b hb =>
        Function.update_of_ne (fun hba : b = a => ha (hba ▸ hb)) ..
      have hround : freeRound (h, some a) = .ok (.inl (h.free (some a), o.next)) := by
        simp only [freeRound, loadTask, freeTask, ho, ok_bind, Option.isSome_some, if_true]
        rfl
      rw [cLoop_next hround]
      rw [hnext] at hrest
      refine ih (hrest.congr fun b hb => by rw [nextAt, nextAt, hsame b hb]) hl (fun b hb => ?_)
        (by omega)
      rw [hsame b hb]
      exact hlive b (List.mem_cons_of_mem a hb)

/-- The loop of `ev_thread_pool_destroy` frees all of the list. -/
theorem freeTasks_eq (hsound : h.Sound) {p : Option Nat} (hchain : Chain (nextAt h) p nodes)
    (hnodup : nodes.Nodup) (hlive : ∀ a ∈ nodes, ∃ o, h.objs a = some o) :
    freeTasks h p = .ok (h.freeAll nodes) := by
  refine freeRounds_eq hchain hnodup hlive (Nat.lt_succ_of_le ?_)
  have hsub : nodes ⊆ List.range h.next := fun a ha =>
    List.mem_range.2 (hsound.live_lt a (Option.isSome_iff_exists.2 (hlive a ha)))
  simpa using (List.subperm_of_subset hnodup hsub).length_le

end EvThreadLinks

end Thread

/-! ## The pool -/

section Pool

variable {ι κ τ : Type} [DecidableEq ι] [DecidableEq κ]

namespace LinkedPool

variable {s : LinkedPool ι κ τ} {t : EvThreadPool ι κ τ} {nodes : ι → List Nat}

/-- A run of the code that stands for the lists. -/
def Stands (r : CRun (LinkedPool ι κ τ)) (t : EvThreadPool ι κ τ) : Prop :=
  ∃ s nodes, r = .ok s ∧ s.Represents t nodes

section Owned

omit [DecidableEq κ]

variable (s) (nodes) (i : ι) (h : Heap (EvTaskInfo τ)) (y : EvThreadLinks ι κ) (nodes' : List Nat)

theorem owned_set_list :
    (s.set i h y).owned (Function.update nodes i nodes') (.list i) = nodes' :=
  Function.update_self ..

theorem owned_set_worker :
    (s.set i h y).owned (Function.update nodes i nodes') (.worker i) = y.phase.inHand :=
  congrArg (fun x : EvThreadLinks ι κ => x.phase.inHand) (Function.update_self ..)

theorem owned_set_of_ne {o : TaskOwner ι κ} (hlist : o ≠ .list i) (hworker : o ≠ .worker i) :
    (s.set i h y).owned (Function.update nodes i nodes') o = s.owned nodes o := by
  cases o with
  | list j => exact Function.update_of_ne (fun hj : j = i => hlist (hj ▸ rfl)) ..
  | worker j =>
      exact congrArg (fun x : EvThreadLinks ι κ => x.phase.inHand)
        (Function.update_of_ne (fun hj : j = i => hworker (hj ▸ rfl)) ..)
  | adder k => rfl

end Owned

section Frame

variable {h : Heap (EvTaskInfo τ)}

omit [DecidableEq κ] in
theorem Represents.links_set (hs : s.Represents t nodes) {i : ι} {y : EvThreadLinks ι κ}
    {info : EvThreadInfo ι κ τ} {nodes' : List Nat} (hy : y.Represents h info nodes')
    (hsame : ∀ o, o ≠ .list i → o ≠ .worker i → ∀ a ∈ s.owned nodes o,
      h.objs a = s.heap.objs a) (j : ι) :
    ((s.set i h y).links j).Represents h ((t.set i info).infos j)
      (Function.update nodes i nodes' j) := by
  simp only [LinkedPool.set, EvThreadPool.set]
  by_cases hj : j = i
  · subst hj
    rwa [Function.update_self, Function.update_self, Function.update_self]
  · rw [Function.update_of_ne hj, Function.update_of_ne hj, Function.update_of_ne hj]
    exact (hs.links j).frame (hsame (.list j) (by simpa using hj) (by simp))
      (hsame (.worker j) (by simp) (by simpa using hj))

omit [DecidableEq ι] [DecidableEq κ] in
/-- What is not in a list yet is not touched. -/
theorem Represents.adder_frame (hs : s.Represents t nodes) {k : κ}
    (hsame : ∀ a ∈ (s.adder k).inHand, h.objs a = s.heap.objs a) :
    (s.adder k).Rel (HoldsTask h) (t.adder k) ∧ ∀ a ∈ (s.adder k).inHand, nextAt h a = none :=
  ⟨(hs.adder k).frame fun a ha => congrArg (Option.map EvTaskInfo.task) (hsame a ha),
    fun a ha => (congrArg (Option.bind · EvTaskInfo.next) (hsame a ha)).trans
      (hs.unlinked k a ha)⟩

omit [DecidableEq κ] in
/-- Thread `i` and the heap change; what the others have is not touched. -/
theorem Represents.set (hs : s.Represents t nodes) {i : ι} {y : EvThreadLinks ι κ}
    {info : EvThreadInfo ι κ τ} {nodes' : List Nat} (hy : y.Represents h info nodes')
    (hsame : ∀ o, o ≠ .list i → o ≠ .worker i → ∀ a ∈ s.owned nodes o,
      h.objs a = s.heap.objs a)
    (hshares : Shares h ((s.set i h y).owned (Function.update nodes i nodes'))) :
    (s.set i h y).Represents (t.set i info) (Function.update nodes i nodes') where
  links := hs.links_set hy hsame
  adder k := (hs.adder_frame (hsame (.adder k) (by simp) (by simp))).1
  unlinked k := (hs.adder_frame (hsame (.adder k) (by simp) (by simp))).2
  destroyer_eq := hs.destroyer_eq
  shares := hshares

end Frame

omit [DecidableEq κ] in
/-- The shares after a step of worker `i`. -/
theorem Represents.shares_worker (hs : s.Represents t nodes) {i : ι} {h : Heap (EvTaskInfo τ)}
    {y : EvThreadLinks ι κ} {ns nodes' : List Nat} (hnodes : nodes i = ns)
    (heffect : EvThreadLinks.Effect s.heap (s.links i) ns h y nodes') :
    Shares h ((s.set i h y).owned (Function.update nodes i nodes')) := by
  have hlist := owned_set_list s nodes i h y nodes'
  have hworker := owned_set_worker s nodes i h y nodes'
  have hothers := fun (o : TaskOwner ι κ) (hl : o ≠ .list i) (hw : o ≠ .worker i) =>
    owned_set_of_ne s nodes i h y nodes' hl hw
  cases heffect with
  | keep hand =>
      refine hs.shares.congr fun o => ?_
      by_cases hl : o = .list i
      · rw [hl, hlist, ← hnodes]
        rfl
      · by_cases hw : o = .worker i
        · rw [hw, hworker, hand]
          rfl
        · exact hothers o hl hw
  | take hempty hand =>
      have hold : s.owned nodes (.list i) = _ :: _ := hnodes
      have hnone : s.owned nodes (.worker i) = [] := hempty
      refine hs.shares.move (show TaskOwner.worker i ≠ .list i by simp) hold hlist ?_ hothers
      rw [hworker, hand, hnone]
      rfl
  | free hand hempty =>
      have hold : s.owned nodes (.worker i) = [_] := hand
      refine hs.shares.free hold (hworker.trans hempty) fun o hw => ?_
      by_cases hl : o = .list i
      · rw [hl, hlist, ← hnodes]
        rfl
      · exact hothers o hl hw

omit [DecidableEq κ] in
theorem Represents.worker (hs : s.Represents t nodes) (i : ι) :
    (((s.links i).workerStep s.heap i).map fun r => do
      let (h, x) ← r
      return s.set i h x).Rel Stands (((t.infos i).workerStep i).map (t.set i)) := by
  have hlive : ∀ a, a ∈ nodes i ∨ a ∈ (s.links i).phase.inHand → ∃ o, s.heap.objs a = some o := by
    rintro a (ha | ha)
    · exact hs.shares.live (show a ∈ s.owned nodes (.list i) from ha)
    · exact hs.shares.live (show a ∈ s.owned nodes (.worker i) from ha)
  have happart : ∀ a ∈ (s.links i).phase.inHand, a ∉ nodes i := fun a ha =>
    hs.shares.not_mem (show a ∈ s.owned nodes (.worker i) from ha)
      (show TaskOwner.list i ≠ .worker i by simp)
  have hstep := EvThreadLinks.workerStep_rel (hs.links i) hlive happart i
  cases hl : (s.links i).workerStep s.heap i with
  | none =>
      rw [hl] at hstep
      cases hr : (t.infos i).workerStep i with
      | none => exact .none
      | some info =>
          rw [hr] at hstep
          cases hstep
  | some r =>
      rw [hl] at hstep
      cases hr : (t.infos i).workerStep i with
      | none =>
          rw [hr] at hstep
          cases hstep
      | some info =>
          rw [hr] at hstep
          cases hstep with
          | some hrel =>
              obtain ⟨h, y, nodes', rfl, heffect, hy⟩ := hrel
              refine .some ⟨s.set i h y, Function.update nodes i nodes', rfl, hs.set hy ?_
                (hs.shares_worker rfl heffect)⟩
              exact fun o _ hworker a ha => heffect.frame fun hand =>
                hs.shares.not_mem (show a ∈ s.owned nodes (.worker i) from hand) hworker ha

omit [DecidableEq κ] in
/-- Thread `i` changes without its list and what its worker has in hand. -/
theorem Represents.touch (hs : s.Represents t nodes) {i : ι} {y : EvThreadLinks ι κ}
    {info : EvThreadInfo ι κ τ} (hy : y.Represents s.heap info (nodes i))
    (hhand : y.phase.inHand = (s.links i).phase.inHand) :
    (s.set i s.heap y).Represents (t.set i info) nodes := by
  have hset := hs.set hy (fun _ _ _ _ _ => rfl) (hs.shares_worker rfl (.keep hhand))
  rwa [Function.update_eq_self] at hset

omit [DecidableEq κ] in
theorem Represents.signalled (hs : s.Represents t nodes) (i : ι) :
    (s.set i s.heap (s.links i).signal).Represents (t.set i (t.infos i).signal) nodes :=
  hs.touch (hs.links i).signal.1 (hs.links i).signal.2

omit [DecidableEq κ] in
/-- The destroyer leaves the section of thread `i`. -/
theorem Represents.leave (hs : s.Represents t nodes) (i : ι) {freed freed' : Bool}
    (hfreed : freed = freed') :
    (s.set i s.heap { s.links i with mutex := none, freed := freed }).Represents
      (t.set i { t.infos i with mutex := none, freed := freed' }) nodes :=
  have hleft : ({ s.links i with mutex := none, freed := freed } : EvThreadLinks ι κ).Represents
      s.heap { t.infos i with mutex := none, freed := freed' } (nodes i) :=
    ⟨(hs.links i).status_eq, rfl, hfreed, (hs.links i).queue, (hs.links i).tasks_eq,
      (hs.links i).phase⟩
  hs.touch hleft rfl

omit [DecidableEq ι] in
theorem Represents.moveAdder (hs : s.Represents t nodes) {k : κ} {p : AddPhase ι Nat}
    {q : AddPhase ι τ} (hpq : p.Rel (HoldsTask s.heap) q) (hhand : p.inHand = (s.adder k).inHand) :
    (s.moveAdder k p).Represents (t.moveAdder k q) nodes where
  links := hs.links
  adder j := by
    simp only [LinkedPool.moveAdder, EvThreadPool.moveAdder]
    by_cases hj : j = k
    · subst hj
      rwa [Function.update_self, Function.update_self]
    · rw [Function.update_of_ne hj, Function.update_of_ne hj]
      exact hs.adder j
  unlinked j a ha := by
    refine hs.unlinked j a ?_
    simp only [LinkedPool.moveAdder] at ha
    by_cases hj : j = k
    · subst hj
      rwa [Function.update_self, hhand] at ha
    · rwa [Function.update_of_ne hj] at ha
  destroyer_eq := hs.destroyer_eq
  shares := hs.shares.congr fun o => by
    cases o with
    | adder j =>
        simp only [LinkedPool.owned, LinkedPool.moveAdder]
        by_cases hj : j = k
        · subst hj
          rw [Function.update_self, hhand]
        · rw [Function.update_of_ne hj]
    | _ => rfl

omit [DecidableEq ι] [DecidableEq κ] in
theorem Represents.moveDestroyer (hs : s.Represents t nodes) (p : DestroyPhase ι) :
    (s.moveDestroyer p).Represents (t.moveDestroyer p) nodes :=
  ⟨hs.links, hs.adder, hs.unlinked, rfl, hs.shares⟩

omit [DecidableEq ι] in
/-- `malloc(sizeof(struct ev_task_info))` -/
theorem Represents.call (hs : s.Represents t nodes) {k : κ} (hout : s.adder k = .out) (i : ι)
    (task : τ) :
    ({ s with heap := s.heap.alloc ⟨task, none⟩ }.moveAdder k (.called i s.heap.next)).Represents
      (t.moveAdder k (.called i task)) nodes := by
  have hsame : ∀ o, ∀ a ∈ s.owned nodes o,
      (s.heap.alloc ⟨task, none⟩).objs a = s.heap.objs a := fun o a ha =>
    s.heap.alloc_of_ne _ (Nat.ne_of_lt
      (hs.shares.sound.live_lt a ((hs.shares.live_iff a).2 ⟨o, ha⟩)))
  have hnew : HoldsTask (s.heap.alloc ⟨task, none⟩) s.heap.next task := by
    rw [HoldsTask, taskAt, s.heap.alloc_self]
    rfl
  have hnext : nextAt (s.heap.alloc ⟨task, none⟩) s.heap.next = none := by
    rw [nextAt, s.heap.alloc_self]
    rfl
  refine ⟨fun j => (hs.links j).frame (hsame (.list j)) (hsame (.worker j)), fun j => ?_,
    fun j a ha => ?_, hs.destroyer_eq, ?_⟩
  · simp only [LinkedPool.moveAdder, EvThreadPool.moveAdder]
    by_cases hj : j = k
    · subst hj
      rw [Function.update_self, Function.update_self]
      exact .called hnew
    · rw [Function.update_of_ne hj, Function.update_of_ne hj]
      exact (hs.adder j).frame fun a ha =>
        congrArg (Option.map EvTaskInfo.task) (hsame (.adder j) a ha)
  · simp only [LinkedPool.moveAdder] at ha
    by_cases hj : j = k
    · subst hj
      rw [Function.update_self] at ha
      rw [List.mem_singleton.1 ha]
      exact hnext
    · rw [Function.update_of_ne hj] at ha
      exact (congrArg (Option.bind · EvTaskInfo.next) (hsame (.adder j) a ha)).trans
        (hs.unlinked j a ha)
  · refine hs.shares.alloc _ (o := TaskOwner.adder k) ?_ fun o ho => ?_
    · simp only [LinkedPool.owned, LinkedPool.moveAdder, Function.update_self, hout]
      rfl
    · cases o with
      | adder j =>
          have hj : j ≠ k := fun hj => ho (hj ▸ rfl)
          simp only [LinkedPool.owned, LinkedPool.moveAdder, Function.update_of_ne hj]
      | _ => rfl

/-- The shares after a task has gone from `k` to the list of thread `i`. -/
theorem shares_added {k : κ} {i : ι} {a : Nat} (hlocked : s.adder k = .locked i a)
    {h : Heap (EvTaskInfo τ)} (hshares : Shares h (s.owned nodes)) {y : EvThreadLinks ι κ}
    (hhand : y.phase = (s.links i).phase) :
    Shares h (((s.set i h y).moveAdder k (.added i)).owned
      (Function.update nodes i (nodes i ++ [a]))) := by
  have hold : s.owned nodes (.adder k) = [a] := by
    simp only [LinkedPool.owned, hlocked]
    rfl
  refine hshares.move (show TaskOwner.list i ≠ .adder k by simp) hold ?_
    (owned_set_list s nodes i h y _) fun o ho hl => ?_
  · simp only [LinkedPool.owned, LinkedPool.moveAdder, Function.update_self]
    rfl
  · cases o with
    | list j => exact Function.update_of_ne (fun hj : j = i => hl (hj ▸ rfl)) ..
    | worker j =>
        simp only [LinkedPool.owned, LinkedPool.moveAdder, LinkedPool.set]
        by_cases hj : j = i
        · subst hj
          rw [Function.update_self, hhand]
        · rw [Function.update_of_ne hj]
    | adder j =>
        have hj : j ≠ k := fun hj => ho (hj ▸ rfl)
        simp only [LinkedPool.owned, LinkedPool.moveAdder, LinkedPool.set,
          Function.update_of_ne hj]

/-- `k` has put its task at the end of the list of thread `i`. -/
theorem Represents.added (hs : s.Represents t nodes) {k : κ} {i : ι} {a : Nat}
    (hlocked : s.adder k = .locked i a) {h : Heap (EvTaskInfo τ)} {y : EvThreadLinks ι κ}
    {info : EvThreadInfo ι κ τ} (hy : y.Represents h info (nodes i ++ [a]))
    (hhand : y.phase = (s.links i).phase)
    (hsame : ∀ o, o ≠ .list i → ∀ b ∈ s.owned nodes o, h.objs b = s.heap.objs b)
    (hshares : Shares h (s.owned nodes)) :
    ((s.set i h y).moveAdder k (.added i)).Represents ((t.set i info).moveAdder k (.added i))
      (Function.update nodes i (nodes i ++ [a])) where
  links := hs.links_set hy fun o hl _ => hsame o hl
  adder j := by
    simp only [LinkedPool.moveAdder, EvThreadPool.moveAdder, LinkedPool.set]
    by_cases hj : j = k
    · subst hj
      rw [Function.update_self, Function.update_self]
      exact .added
    · rw [Function.update_of_ne hj, Function.update_of_ne hj]
      exact (hs.adder_frame (hsame (.adder j) (by simp))).1
  unlinked j b hb := by
    simp only [LinkedPool.moveAdder, LinkedPool.set] at hb
    by_cases hj : j = k
    · subst hj
      rw [Function.update_self] at hb
      cases hb
    · rw [Function.update_of_ne hj] at hb
      exact (hs.adder_frame (hsame (.adder j) (by simp))).2 b hb
  destroyer_eq := hs.destroyer_eq
  shares := shares_added hlocked hshares hhand

/-- The last step under the mutex of `ev_task_info_add`. -/
theorem Represents.enqueue (hs : s.Represents t nodes) {k : κ} {i : ι} {a : Nat} {task : τ}
    (hlocked : s.adder k = .locked i a) (htask : HoldsTask s.heap a task) :
    Stands (match (s.links i).head with
      | none => .ok ((s.set i s.heap
          { s.links i with head := some a, tail := some a, mutex := none }).moveAdder k (.added i))
      | some _ => do
        let h ← linkTask s.heap (s.links i).tail a
        return (s.set i h { s.links i with tail := some a, mutex := none }).moveAdder k (.added i))
      ((t.set i { t.infos i with tasks := (t.infos i).tasks ++ [task], mutex := none }).moveAdder
        k (.added i)) := by
  have hown : a ∈ s.owned nodes (.adder k) := by
    simp only [LinkedPool.owned, hlocked]
    exact List.mem_singleton_self a
  have hnext : nextAt s.heap a = none := hs.unlinked k a hown
  cases hhead : (s.links i).head with
  | none =>
      exact ⟨_, _, rfl, hs.added hlocked ((hs.links i).enqueue_empty hhead htask hnext) rfl
        (fun _ _ _ _ => rfl) hs.shares⟩
  | some b =>
      obtain ⟨u, htail, hu⟩ := (hs.links i).tail_mem hhead
      have hnew : a ∉ nodes i := hs.shares.not_mem hown (show TaskOwner.list i ≠ .adder k by simp)
      have hmem : u ∈ s.owned nodes (.list i) := hu
      obtain ⟨o, ho⟩ := hs.shares.live hmem
      have hlink : linkTask s.heap (s.links i).tail a
          = .ok (s.heap.modify u fun o => { o with next := some a }) := by
        rw [htail, linkTask, ho]
        rfl
      simp only [hlink, ok_bind]
      refine ⟨_, _, rfl, hs.added hlocked ((hs.links i).enqueue htail ⟨o, ho⟩ htask hnext hnew
        fun hua => hnew (hua ▸ hu)) rfl (fun o hl c hc => ?_) (hs.shares.modify hmem _)⟩
      exact s.heap.modify_of_ne _ fun hcu => hs.shares.not_mem hmem hl (hcu ▸ hc)

omit [DecidableEq κ] in
/-- The body of the first loop of `ev_thread_pool_destroy`. -/
theorem Represents.sweep (hs : s.Represents t nodes) (i : ι) (p : DestroyPhase ι) :
    Stands (do
      let h ← freeTasks s.heap (s.links i).head
      return (s.set i h { s.links i with
        status := (s.links i).status + 1
        head := none
        tail := none
        mutex := none }).moveDestroyer p)
      ((t.set i { t.infos i with
        status := (t.infos i).status + 1
        tasks := []
        mutex := none }).moveDestroyer p) := by
  have hi := hs.links i
  have hfree : freeTasks s.heap (s.links i).head = .ok (s.heap.freeAll (nodes i)) :=
    EvThreadLinks.freeTasks_eq hs.shares.sound hi.queue.chain hi.queue.nodup fun a ha =>
      hs.shares.live (show a ∈ s.owned nodes (.list i) from ha)
  have hsame : ∀ o, o ≠ .list i → ∀ a ∈ s.owned nodes o,
      (s.heap.freeAll (nodes i)).objs a = s.heap.objs a := fun o hl a ha =>
    Heap.freeAll_of_not_mem fun hmem =>
      hs.shares.not_mem (show a ∈ s.owned nodes (.list i) from hmem) hl ha
  have hphase : (s.links i).phase.Rel (HoldsTask (s.heap.freeAll (nodes i))) (t.infos i).phase :=
    hi.phase.frame fun a ha => congrArg (Option.map EvTaskInfo.task)
      (hsame (.worker i) (by simp) a ha)
  have hswept : ({ s.links i with
      status := (s.links i).status + 1
      head := none
      tail := none
      mutex := none } : EvThreadLinks ι κ).Represents (s.heap.freeAll (nodes i)) { t.infos i with
        status := (t.infos i).status + 1
        tasks := []
        mutex := none } [] :=
    ⟨congrArg (· + 1) hi.status_eq, rfl, hi.freed_eq, .empty, rfl, hphase⟩
  rw [hfree, ok_bind]
  refine ⟨_, Function.update nodes i [], rfl,
    (hs.set hswept (fun o hl _ => hsame o hl) ?_).moveDestroyer p⟩
  refine hs.shares.freeAll (show s.owned nodes (.list i) = nodes i from rfl)
    (owned_set_list s nodes i _ _ []) fun o hl => ?_
  by_cases hw : o = .worker i
  · rw [hw, owned_set_worker]
    rfl
  · exact owned_set_of_ne s nodes i _ _ [] hl hw

omit [DecidableEq ι] [DecidableEq κ] in
/-- A mutex is locked, and the one who does goes on. -/
theorem Represents.lock (hs : s.Represents t nodes) (i : ι) (u : PoolThread ι κ)
    {f : EvThreadLinks ι κ → LinkedPool ι κ τ} {g : EvThreadInfo ι κ τ → EvThreadPool ι κ τ}
    (hgo : ∀ y info, y.Represents s.heap info (nodes i) → y.phase = (s.links i).phase →
      (f y).Represents (g info) nodes) :
    (((s.links i).lock u).map fun y => (.ok (f y) : CRun _)).Rel Stands
      (((t.infos i).lock u).map g) := by
  have hlock := EvThreadLinks.lock_rel (hs.links i) u
  cases hl : (s.links i).lock u with
  | none =>
      rw [hl] at hlock
      cases hr : (t.infos i).lock u with
      | none => exact .none
      | some info =>
          rw [hr] at hlock
          cases hlock
  | some y =>
      rw [hl] at hlock
      cases hr : (t.infos i).lock u with
      | none =>
          rw [hr] at hlock
          cases hlock
      | some info =>
          rw [hr] at hlock
          cases hlock with
          | some hy => exact .some ⟨f y, nodes, rfl, hgo y info hy.1 hy.2⟩

theorem Represents.adderStep (hs : s.Represents t nodes) (k : κ) :
    (s.adderStep k).Rel Stands (t.adderStep k) := by
  have hk := hs.adder k
  unfold LinkedPool.adderStep EvThreadPool.adderStep
  obtain ⟨p, hp⟩ : ∃ p, s.adder k = p := ⟨_, rfl⟩
  obtain ⟨q, hq⟩ : ∃ q, t.adder k = q := ⟨_, rfl⟩
  rw [hp, hq] at hk ⊢
  have hhand : p.inHand = (s.adder k).inHand := congrArg AddPhase.inHand hp.symm
  cases hk with
  | out => exact .none
  | called htask =>
      exact hs.lock _ _ fun y info hy hphase =>
        (hs.touch hy (congrArg TaskPhase.inHand hphase)).moveAdder (.locked htask) hhand
  | locked htask => exact .some (hs.enqueue hp htask)
  | @added i => exact .some ⟨_, nodes, rfl, (hs.signalled i).moveAdder .out hhand⟩

omit [DecidableEq κ] in
theorem Represents.destroyerStep (hs : s.Represents t nodes) (order : List ι) :
    (s.destroyerStep order).Rel Stands (t.destroyerStep order) := by
  unfold LinkedPool.destroyerStep EvThreadPool.destroyerStep
  rw [hs.destroyer_eq]
  cases t.destroyer with
  | out => exact .some ⟨_, nodes, rfl, hs.moveDestroyer _⟩
  | sweep rest =>
      cases rest with
      | nil => exact .some ⟨_, nodes, rfl, hs.moveDestroyer _⟩
      | cons i rest =>
          exact hs.lock i _ fun y info hy hphase =>
            (hs.touch hy (congrArg TaskPhase.inHand hphase)).moveDestroyer _
  | sweeping i rest => exact .some (hs.sweep i _)
  | swept i rest =>
      exact .some ⟨_, nodes, rfl, (hs.signalled i).moveDestroyer _⟩
  | reap rest =>
      cases rest with
      | nil => exact .some ⟨_, nodes, rfl, hs.moveDestroyer _⟩
      | cons i rest =>
          exact hs.lock i _ fun y info hy hphase =>
            (hs.touch hy (congrArg TaskPhase.inHand hphase)).moveDestroyer _
  | reaping i rest =>
      have hstatus := (hs.links i).status_eq
      dsimp only
      by_cases htwo : (t.infos i).status = 2
      · rw [if_pos (hstatus.trans htwo), if_pos htwo]
        exact .some ⟨_, nodes, rfl, (hs.leave i rfl).moveDestroyer _⟩
      · rw [if_neg fun h => htwo (hstatus.symm.trans h), if_neg htwo]
        exact .some ⟨_, nodes, rfl, (hs.leave i (hs.links i).freed_eq).moveDestroyer _⟩
  | reaped i rest =>
      exact .some ⟨_, nodes, rfl, (hs.signalled i).moveDestroyer _⟩
  | done => exact .none

theorem Represents.step (hs : s.Represents t nodes) (order : List ι) (a : PoolAction ι κ τ) :
    (s.step order a).Rel Stands ((threadPool order).step t a) := by
  cases a with
  | worker i => exact hs.worker i
  | wake i =>
      have hi := hs.links i
      have hphase := hi.phase
      simp only [LinkedPool.step, threadPool]
      obtain ⟨p, hp⟩ : ∃ p, (s.links i).phase = p := ⟨_, rfl⟩
      obtain ⟨q, hq⟩ : ∃ q, (t.infos i).phase = q := ⟨_, rfl⟩
      rw [hp, hq] at hphase
      rw [hp, hq]
      cases hphase with
      | blocked =>
          have hwoken : ({ s.links i with phase := .woken } : EvThreadLinks ι κ).Represents s.heap
              { t.infos i with phase := .woken } (nodes i) :=
            ⟨hi.status_eq, hi.mutex_eq, hi.freed_eq, hi.queue, hi.tasks_eq, .woken⟩
          exact .some ⟨_, nodes, rfl, hs.touch hwoken (congrArg TaskPhase.inHand hp).symm⟩
      | _ => exact .none
  | add k i task =>
      have hk := hs.adder k
      simp only [LinkedPool.step, threadPool]
      obtain ⟨p, hp⟩ : ∃ p, s.adder k = p := ⟨_, rfl⟩
      obtain ⟨q, hq⟩ : ∃ q, t.adder k = q := ⟨_, rfl⟩
      rw [hp, hq] at hk
      rw [hp, hq]
      cases hk with
      | out => exact .some ⟨_, nodes, rfl, hs.call hp i task⟩
      | _ => exact .none
  | adder k => exact hs.adderStep k
  | destroyer => exact hs.destroyerStep order

theorem stands_init (order : List ι) :
    Stands (linkedPool order : System (CRun (LinkedPool ι κ τ)) _).init
      (threadPool order : System (EvThreadPool ι κ τ) _).init := by
  refine ⟨_, fun _ => [], rfl, fun i => ⟨rfl, rfl, rfl, .empty, rfl, .top⟩, fun k => .out,
    fun k a ha => ?_, rfl, .empty fun o => ?_⟩
  · cases ha
  · cases o <;> rfl

end LinkedPool

theorem linkedPool_matches (order : List ι) :
    Matches (linkedPool order : System (CRun (LinkedPool ι κ τ)) (PoolAction ι κ τ))
      (threadPool order) LinkedPool.Stands where
  init := LinkedPool.stands_init order
  step := by
    rintro _ t ⟨s, nodes, rfl, hs⟩ a
    exact hs.step order a

/-- **Refinement.** The pool with its pointers and the pool with lists have the same runs; after each
    nothing has gone wrong, the pointers stand for the lists, and every `struct ev_task_info` that
    is live has one owner. -/
theorem threadPool_pointers (order : List ι) (as : List (PoolAction ι κ τ)) :
    (∀ r, (linkedPool order).run (linkedPool order).init as = some r → ∃ s t nodes, r = .ok s ∧
      (threadPool order).run (threadPool order).init as = some t ∧ s.Represents t nodes) ∧
    ∀ t, (threadPool order).run (threadPool order).init as = some t → ∃ s nodes,
      (linkedPool order).run (linkedPool order).init as = some (.ok s) ∧ s.Represents t nodes := by
  constructor
  · intro r hr
    obtain ⟨t, ht, s, nodes, rfl, hs⟩ := (linkedPool_matches order).exists_right hr
    exact ⟨s, t, nodes, rfl, ht, hs⟩
  · intro t ht
    obtain ⟨r, hr, s, nodes, rfl, hs⟩ := (linkedPool_matches order).exists_left ht
    exact ⟨s, nodes, hr, hs⟩

omit [DecidableEq ι] [DecidableEq κ] in
/-- Where the lists are empty and nobody has a task in hand, nothing is live. -/
theorem LinkedPool.Represents.objs_eq_none {s : LinkedPool ι κ τ} {t : EvThreadPool ι κ τ}
    {nodes : ι → List Nat} (hs : s.Represents t nodes) (hdestroyed : t.Destroyed) (a : Nat) :
    s.heap.objs a = none := by
  by_contra hne
  have hlive := Option.isSome_iff_ne_none.2 hne
  obtain ⟨o, ho⟩ := (hs.shares.live_iff a).1 hlive
  cases o with
  | list i =>
      have htasks := (hs.links i).tasks_eq
      rw [hdestroyed.tasks_nil i] at htasks
      rw [LinkedPool.owned, List.map_eq_nil_iff.1 htasks] at ho
      cases ho
  | worker i =>
      have hphase := (hs.links i).phase
      rw [hdestroyed.exited i] at hphase
      simp only [LinkedPool.owned] at ho
      cases hp : (s.links i).phase with
      | running b =>
          rw [hp] at hphase
          cases hphase
      | _ =>
          rw [hp] at ho
          cases ho
  | adder k =>
      have hk := hs.adder k
      rw [hdestroyed.adders_out k] at hk
      simp only [LinkedPool.owned] at ho
      cases hp : s.adder k with
      | out =>
          rw [hp] at ho
          cases ho
      | _ =>
          rw [hp] at hk
          cases hk

/-- **No leaks.** Where an orderly run comes to rest, every `struct ev_task_info` has been freed, once,
    by its worker or by `ev_thread_pool_destroy`. -/
theorem threadPool_memory [Fintype ι] [Fintype κ] {order : List ι} (hnodup : order.Nodup)
    (hall : ∀ i, i ∈ order) {as : List (PoolAction ι κ τ)} {t : EvThreadPool ι κ τ}
    (hrun : (orderlyPool order).run (orderlyPool order).init as = some t)
    (hrest : AtRest (orderlyPool order) PoolAction.isOwn t) :
    ∃ s, (linkedPool order).run (linkedPool order).init as = some (.ok s) ∧
      s.heap.freed.Nodup ∧ ∀ a, s.heap.objs a = none := by
  have hdestroyed : t.Destroyed := (EvThreadPool.Stuck.of_atRest hrest).destroyed
    (EvThreadPool.Calm.of_reachable hnodup (Reachable.init.run hrun)) hall
  obtain ⟨_, hr, s, nodes, rfl, hs⟩ :=
    (linkedPool_matches order).exists_left (System.restrict_run hrun)
  exact ⟨s, hr, hs.shares.sound.freed_nodup, hs.objs_eq_none hdestroyed⟩

end Pool

/-- One task is run, one is freed by `ev_thread_pool_destroy`. -/
def twoTasks : List (PoolAction Unit Unit Nat) :=
  [.add () () 1, .adder (), .adder (), .adder (), .worker (), .worker (), .worker (), .worker (),
    .add () () 2, .adder (), .adder (), .adder (), .destroyer, .destroyer, .destroyer, .destroyer,
    .destroyer, .worker (), .worker (), .destroyer, .destroyer, .destroyer, .worker (), .worker (),
    .worker (), .destroyer, .destroyer, .destroyer]

theorem threadPool_memory_two : ∃ s : LinkedPool Unit Unit Nat,
    (linkedPool [()]).run (linkedPool [()]).init twoTasks = some (.ok s) ∧
      s.heap.freed.Nodup ∧ ∀ a, s.heap.objs a = none := by
  have hrun : (orderlyPool [()]).run (orderlyPool [()]).init twoTasks = some _ := rfl
  refine threadPool_memory (List.nodup_singleton ()) (fun _ => List.mem_singleton_self ()) hrun ?_
  intro a ha
  cases a with
  | wake => cases ha
  | add => cases ha
  | _ => rfl

end Ryze
