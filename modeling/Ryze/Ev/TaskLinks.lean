import Ryze.Ev.ThreadPoolTasks
import Ryze.Lib.CRun
import Ryze.Lib.LinkChain
import Ryze.Lib.Shares

set_option autoImplicit false

/-! # The thread pool with its pointers

The lists of `ev_thread_pool.cc` are chains of `struct ev_task_info`, each allocated by
`ev_task_info_add` and freed by the worker that has run it or by `ev_thread_pool_destroy`. Here the
pool is as the code has it: a list is its `head` and its `tail`, and a step that reads, writes or
frees a `struct ev_task_info` that is not there goes wrong. -/

namespace Ryze

open CLib LinkChain Mutexes Ownership Transition

/-- `struct ev_task_info`; `task` stands for `func`, `callback` and `arg`. -/
structure EvTaskInfo (τ : Type) where
  task : τ
  next : Option Nat
deriving DecidableEq, Repr

/-- `struct ev_thread_info`, who holds its mutex, whether it has been freed, and where its worker is;
    a worker that runs a task has it at the address `task_info`. -/
structure EvThreadLinks (ι κ : Type) where
  status : Nat
  head : Option Nat
  tail : Option Nat
  mutex : Option (PoolThread ι κ)
  freed : Bool
  phase : TaskPhase Nat
deriving DecidableEq, Repr

structure LinkedPool (ι κ τ : Type) where
  heap : Heap (EvTaskInfo τ)
  links : ι → EvThreadLinks ι κ
  adder : κ → AddPhase ι Nat
  destroyer : DestroyPhase ι

/-! ## The functions -/

section Memory

variable {τ : Type}

def loadTask (h : Heap (EvTaskInfo τ)) (a : Nat) : CRun (EvTaskInfo τ) :=
  match h.objs a with
  | some info => .ok info
  | none => .error .read

/-- `free(task_info)` -/
def freeTask (h : Heap (EvTaskInfo τ)) (a : Nat) : CRun (Heap (EvTaskInfo τ)) :=
  if (h.objs a).isSome then .ok (h.free (some a)) else .error .write

/-- `tail->next = task_info` -/
def linkTask (h : Heap (EvTaskInfo τ)) (tail : Option Nat) (a : Nat) :
    CRun (Heap (EvTaskInfo τ)) :=
  match tail with
  | none => .error .write
  | some t =>
    if (h.objs t).isSome then .ok (h.modify t fun info => { info with next := some a })
    else .error .write

/-- One round of `while(task_info != NULL)`. -/
def freeRound (s : Heap (EvTaskInfo τ) × Option Nat) :
    CRun ((Heap (EvTaskInfo τ) × Option Nat) ⊕ Heap (EvTaskInfo τ)) :=
  match s.2 with
  | none => return .inr s.1
  | some a => do
    let info ← loadTask s.1 a
    let h ← freeTask s.1 a
    return .inl (h, info.next)

/-- The loop of `ev_thread_pool_destroy` over a list of tasks. -/
def freeTasks (h : Heap (EvTaskInfo τ)) (head : Option Nat) : CRun (Heap (EvTaskInfo τ)) :=
  cLoop freeRound (h.next + 1) (h, head)

end Memory

section Step

variable {ι κ τ : Type}

namespace EvThreadLinks

/-- `pthread_mutex_lock(&thread_info->mutex)` by `t`. -/
def lock (x : EvThreadLinks ι κ) (t : PoolThread ι κ) : Option (EvThreadLinks ι κ) :=
  if x.mutex.isNone && !x.freed then some { x with mutex := some t } else none

/-- `pthread_cond_signal(&thread_info->cond)` -/
def signal (x : EvThreadLinks ι κ) : EvThreadLinks ι κ :=
  match x.phase with
  | .blocked => { x with phase := .woken }
  | _ => x

/-- `ev_task_info_func` of worker `i`. -/
def workerStep (h : Heap (EvTaskInfo τ)) (x : EvThreadLinks ι κ) (i : ι) :
    Option (CRun (Heap (EvTaskInfo τ) × EvThreadLinks ι κ)) :=
  match x.phase with
  | .top => (x.lock (.worker i)).map fun x => .ok (h, { x with phase := .locked })
  | .locked =>
    match x.head with
    | none => some (.ok (h, { x with mutex := none, phase := .blocked }))
    | some _ => some (.ok (h, { x with phase := .tested }))
  | .blocked => none
  | .woken => (x.lock (.worker i)).map fun x => .ok (h, { x with phase := .tested })
  | .tested =>
    match x.head with
    | none =>
      -- `continue`, without an unlock
      if x.status = 0 then some (.ok (h, { x with phase := .top }))
      else some (.ok (h, { x with status := x.status + 1, mutex := none, phase := .exiting }))
    | some a =>
      if x.head = x.tail then
        some (.ok (h, { x with head := none, tail := none, mutex := none, phase := .running a }))
      else
        some do
          let info ← loadTask h a
          return (h, { x with head := info.next, mutex := none, phase := .running a })
  | .running a =>
    some do
      -- `task_info->func(task_info->arg)` and the callback
      let _ ← loadTask h a
      let h ← freeTask h a
      return (h, { x with phase := .top })
  | .exiting => some (.ok (h, { x with phase := .exited }))
  | .exited => none

end EvThreadLinks

variable [DecidableEq ι] [DecidableEq κ]

namespace LinkedPool

def set (s : LinkedPool ι κ τ) (i : ι) (h : Heap (EvTaskInfo τ)) (x : EvThreadLinks ι κ) :
    LinkedPool ι κ τ :=
  { s with heap := h, links := Function.update s.links i x }

def moveAdder (s : LinkedPool ι κ τ) (k : κ) (p : AddPhase ι Nat) : LinkedPool ι κ τ :=
  { s with adder := Function.update s.adder k p }

def moveDestroyer (s : LinkedPool ι κ τ) (p : DestroyPhase ι) : LinkedPool ι κ τ :=
  { s with destroyer := p }

/-- `ev_task_info_add` by `k`, from the lock on. -/
def adderStep (s : LinkedPool ι κ τ) (k : κ) : Option (CRun (LinkedPool ι κ τ)) :=
  match s.adder k with
  | .out => none
  | .called i a => ((s.links i).lock (.adder k)).map fun x =>
      .ok ((s.set i s.heap x).moveAdder k (.locked i a))
  | .locked i a =>
    some (match (s.links i).head with
    | none => .ok ((s.set i s.heap
        { s.links i with head := some a, tail := some a, mutex := none }).moveAdder k (.added i))
    | some _ => do
      let h ← linkTask s.heap (s.links i).tail a
      return (s.set i h { s.links i with tail := some a, mutex := none }).moveAdder k (.added i))
  | .added i => some (.ok ((s.set i s.heap (s.links i).signal).moveAdder k .out))

/-- `ev_thread_pool_destroy`; the pool's list of threads is `order`. -/
def destroyerStep (order : List ι) (s : LinkedPool ι κ τ) : Option (CRun (LinkedPool ι κ τ)) :=
  match s.destroyer with
  | .out => some (.ok (s.moveDestroyer (.sweep order)))
  | .sweep [] => some (.ok (s.moveDestroyer (.reap order)))
  | .sweep (i :: rest) => ((s.links i).lock .destroyer).map fun x =>
      .ok ((s.set i s.heap x).moveDestroyer (.sweeping i rest))
  | .sweeping i rest =>
    some do
      let h ← freeTasks s.heap (s.links i).head
      return (s.set i h { s.links i with
        status := (s.links i).status + 1
        head := none
        tail := none
        mutex := none }).moveDestroyer (.swept i rest)
  | .swept i rest => some (.ok ((s.set i s.heap (s.links i).signal).moveDestroyer (.sweep rest)))
  | .reap [] => some (.ok (s.moveDestroyer .done))
  | .reap (i :: rest) => ((s.links i).lock .destroyer).map fun x =>
      .ok ((s.set i s.heap x).moveDestroyer (.reaping i rest))
  | .reaping i rest =>
    if (s.links i).status = 2 then
      some (.ok ((s.set i s.heap { s.links i with mutex := none, freed := true }).moveDestroyer
        (.reap rest)))
    else
      some (.ok ((s.set i s.heap { s.links i with mutex := none }).moveDestroyer (.reaped i rest)))
  | .reaped i rest =>
    some (.ok ((s.set i s.heap (s.links i).signal).moveDestroyer (.reap (i :: rest))))
  | .done => none

def step (order : List ι) (s : LinkedPool ι κ τ) :
    PoolAction ι κ τ → Option (CRun (LinkedPool ι κ τ))
  | .worker i => ((s.links i).workerStep s.heap i).map fun r => do
      let (h, x) ← r
      return s.set i h x
  | .wake i =>
    match (s.links i).phase with
    | .blocked => some (.ok (s.set i s.heap { s.links i with phase := .woken }))
    | _ => none
  | .add k i task =>
    match s.adder k with
    | .out => some (.ok ({ s with heap := s.heap.alloc ⟨task, none⟩ }.moveAdder k
        (.called i s.heap.next)))
    | _ => none
  | .adder k => s.adderStep k
  | .destroyer => s.destroyerStep order

end LinkedPool

/-- After a step that went wrong nothing is known. -/
def linkedPool (order : List ι) : System (CRun (LinkedPool ι κ τ)) (PoolAction ι κ τ) where
  init := .ok ⟨Heap.empty, fun _ => ⟨0, none, none, none, false, .top⟩, fun _ => .out, .out⟩
  step
    | .ok s, a => s.step order a
    | .error _, _ => none

end Step

end Ryze
