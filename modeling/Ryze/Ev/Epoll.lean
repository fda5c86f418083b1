import Ryze.Lib.Population
import Ryze.Lib.Progress
import Ryze.Lib.Simulation

set_option autoImplicit false

/-! # `epoll.cc`: the list is emptied before the eventfd is read

The threads of `epoll.cc` add three tasks each to one list and write to an edge-triggered eventfd
behind each of them. `main` waits for the edge, empties the list under the mutex, and reads the
eventfd after that. What is added between the unlock and the `read` has its notification read away,
and stays in the list unless another one comes; nothing else stays. `main` leaves when `epoll_wait`
times out, destroys the mutex and the list under the threads that have not added all their tasks, and
returns, which ends them where they are. -/

namespace Ryze

open Population Transition

/-- Where a thread is in `thread_func`. -/
inductive ThreadFunc
  /-- in front of `while(count)` -/
  | counting (count : Nat)
  /-- behind `pthread_mutex_unlock`, in front of `write`, with what `count--` will leave -/
  | writing (count : Nat)
  /-- in `pthread_mutex_lock`, on a mutex that `main` has destroyed -/
  | stale
deriving DecidableEq, Repr

/-- Where `main` is. -/
inductive EpollMain
  /-- inside `epoll_wait` -/
  | waiting
  /-- in `process_task`, in front of `pthread_mutex_lock` -/
  | readable
  /-- with the mutex, in front of `while(p != head)` -/
  | draining
  /-- behind `pthread_mutex_unlock`, in front of `read` -/
  | unlocked
  /-- behind the loop, which has broken off -/
  | left
  /-- with the mutex destroyed, the list freed and the files closed, in front of `return 0` -/
  | gone
  /-- behind it: the process is over -/
  | returned
deriving DecidableEq, Repr

/-- `epoll_wait` has timed out. -/
def EpollMain.timedOut : EpollMain → Bool
  | .left => true
  | .gone => true
  | .returned => true
  | _ => false

/-- The mutex is destroyed and the list freed. -/
def EpollMain.destroyed : EpollMain → Bool
  | .gone => true
  | .returned => true
  | _ => false

structure Epoll (ι : Type) where
  /-- the `thread_id`s of the tasks in the list -/
  head : List ι
  /-- the counter of the eventfd -/
  evfd : Nat
  /-- an edge was raised since `epoll_wait` last returned -/
  edge : Bool
  threads : ι → ThreadFunc
  main : EpollMain
  /-- the tasks that were added -/
  added : List ι
  /-- the tasks whose callback was called -/
  processed : List ι
  /-- what was in the list at the last `read` of the eventfd -/
  missed : List ι

inductive EpollAction (ι : Type)
  | thread (i : ι)
  | main
  /-- the three milliseconds of `epoll_wait` are over -/
  | timeout
deriving DecidableEq, Repr

/-- `value` -/
def eventfdValue : Nat := 123

/-- The largest value of the counter. -/
def eventfdMax : Nat := 2 ^ 64 - 2

section Steps

variable {ι : Type}

/-- `write(param->fd, &value, sizeof(uint64_t))`; without effect where the counter would
    overflow. -/
def Epoll.write (s : Epoll ι) : Epoll ι :=
  if s.evfd + eventfdValue ≤ eventfdMax then
    { s with evfd := s.evfd + eventfdValue, edge := true }
  else s

/-- `epoll_wait` has an event. -/
def Epoll.ready (s : Epoll ι) : Prop := s.edge = true ∧ 0 < s.evfd

instance (s : Epoll ι) : Decidable s.ready := inferInstanceAs (Decidable (_ ∧ _))

/-- `main`, with `process_task`. -/
def Epoll.mainStep (s : Epoll ι) : Option (Epoll ι) :=
  match s.main with
  | .waiting => if s.ready then some { s with main := .readable, edge := false } else none
  | .readable => some { s with main := .draining }
  | .draining =>
    match s.head with
    | task :: rest => some { s with head := rest, processed := s.processed ++ [task] }
    | [] => some { s with main := .unlocked }
  | .unlocked => some { s with main := .waiting, evfd := 0, missed := s.head }
  | .left => some { s with main := .gone }
  | .gone => some { s with main := .returned }
  | .returned => none

/-- `epoll_wait` returns 0 and the loop breaks off. -/
def Epoll.timeout (s : Epoll ι) : Option (Epoll ι) :=
  if s.main = .waiting ∧ ¬ s.ready then some { s with main := .left } else none

variable [DecidableEq ι]

def Epoll.setThread (s : Epoll ι) (i : ι) (t : ThreadFunc) : Epoll ι :=
  { s with threads := Function.update s.threads i t }

/-- `thread_func`: a task is added under the mutex, then the eventfd is written to, without effect
    once it is closed. -/
def Epoll.threadStep (s : Epoll ι) (i : ι) : Option (Epoll ι) :=
  match s.threads i with
  | .counting 0 => none
  | .counting (count + 1) =>
    match s.main with
    | .draining => none
    | .gone => some (s.setThread i .stale)
    | .returned => none
    | _ => some ({ s with head := s.head ++ [i], added := s.added ++ [i] }.setThread i
        (.writing count))
  | .writing count =>
    match s.main with
    | .gone => some (s.setThread i (.counting count))
    | .returned => none
    | _ => some (s.write.setThread i (.counting count))
  | .stale => none

/-- The program: every thread has its `count` of 3 in front of it. -/
def epoll : System (Epoll ι) (EpollAction ι) where
  init := ⟨[], 0, false, fun _ => .counting 3, .waiting, [], [], []⟩
  step s
    | .thread i => s.threadStep i
    | .main => s.mainStep
    | .timeout => s.timeout

end Steps

/-- What the threads and `main` do by themselves. -/
def EpollAction.own {ι : Type} : EpollAction ι → Bool
  | .timeout => false
  | _ => true

/-! ## The steps -/

section Inversion

variable {ι : Type} [DecidableEq ι]

/-- All that a step can do. -/
inductive Epoll.Step (s : Epoll ι) : EpollAction ι → Epoll ι → Prop
  | add {i : ι} {count : Nat} (hi : s.threads i = .counting (count + 1))
      (hdraining : s.main ≠ .draining) (hmutex : s.main.destroyed = false) :
      s.Step (.thread i) ({ s with head := s.head ++ [i], added := s.added ++ [i] }.setThread i
        (.writing count))
  | stale {i : ι} {count : Nat} (hi : s.threads i = .counting (count + 1))
      (hgone : s.main = .gone) : s.Step (.thread i) (s.setThread i .stale)
  | write {i : ι} {count : Nat} (hi : s.threads i = .writing count)
      (hmutex : s.main.destroyed = false) (hmax : s.evfd + eventfdValue ≤ eventfdMax) :
      s.Step (.thread i) ({ s with evfd := s.evfd + eventfdValue, edge := true }.setThread i
        (.counting count))
  | full {i : ι} {count : Nat} (hi : s.threads i = .writing count)
      (hmax : eventfdMax < s.evfd + eventfdValue) :
      s.Step (.thread i) (s.setThread i (.counting count))
  | closed {i : ι} {count : Nat} (hi : s.threads i = .writing count) (hgone : s.main = .gone) :
      s.Step (.thread i) (s.setThread i (.counting count))
  | wait (hmain : s.main = .waiting) (hready : s.ready) :
      s.Step .main { s with main := .readable, edge := false }
  | lock (hmain : s.main = .readable) : s.Step .main { s with main := .draining }
  | process {task : ι} {rest : List ι} (hmain : s.main = .draining)
      (hhead : s.head = task :: rest) :
      s.Step .main { s with head := rest, processed := s.processed ++ [task] }
  | unlock (hmain : s.main = .draining) (hhead : s.head = []) :
      s.Step .main { s with main := .unlocked }
  | read (hmain : s.main = .unlocked) :
      s.Step .main { s with main := .waiting, evfd := 0, missed := s.head }
  | leave (hmain : s.main = .waiting) (hready : ¬ s.ready) :
      s.Step .timeout { s with main := .left }
  | destroy (hmain : s.main = .left) : s.Step .main { s with main := .gone }
  | exit (hmain : s.main = .gone) : s.Step .main { s with main := .returned }

theorem EpollMain.destroyed_of_ne {p : EpollMain} (hgone : p ≠ .gone) (hreturned : p ≠ .returned) :
    p.destroyed = false := by
  cases p with
  | gone => exact absurd rfl hgone
  | returned => exact absurd rfl hreturned
  | waiting | readable | draining | unlocked | left => rfl

theorem Epoll.Step.of_threadStep {s s' : Epoll ι} {i : ι} (h : s.threadStep i = some s') :
    s.Step (.thread i) s' := by
  unfold threadStep at h
  split at h
  · cases h
  · next count hi =>
    split at h
    · cases h
    · next hgone =>
      cases h
      exact .stale hi hgone
    · cases h
    · next hdraining hgone hreturned =>
      cases h
      exact .add hi hdraining (EpollMain.destroyed_of_ne hgone hreturned)
  · next count hi =>
    split at h
    · next hgone =>
      cases h
      exact .closed hi hgone
    · cases h
    · next hgone hreturned =>
      cases h
      unfold Epoll.write
      split
      · next hmax => exact .write hi (EpollMain.destroyed_of_ne hgone hreturned) hmax
      · next hmax => exact .full hi (Nat.lt_of_not_le hmax)
  · cases h

theorem Epoll.Step.of_mainStep {s s' : Epoll ι} (h : s.mainStep = some s') : s.Step .main s' := by
  unfold mainStep at h
  split at h
  · next hmain =>
    split at h
    · next hready =>
      cases h
      exact .wait hmain hready
    · cases h
  · next hmain =>
    cases h
    exact .lock hmain
  · next hmain =>
    split at h
    · next task rest hhead =>
      cases h
      exact .process hmain hhead
    · next hhead =>
      cases h
      exact .unlock hmain hhead
  · next hmain =>
    cases h
    exact .read hmain
  · next hmain =>
    cases h
    exact .destroy hmain
  · next hmain =>
    cases h
    exact .exit hmain
  · cases h

theorem Epoll.Step.of_step {s s' : Epoll ι} {a : EpollAction ι} (h : epoll.step s a = some s') :
    s.Step a s' := by
  cases a with
  | thread i => exact .of_threadStep h
  | main => exact .of_mainStep h
  | timeout =>
      change s.timeout = some s' at h
      unfold timeout at h
      split at h
      · next hleave =>
        cases h
        exact .leave hleave.1 hleave.2
      · cases h

end Inversion

/-! ## The invariant -/

section Invariant

variable {ι : Type} [DecidableEq ι]

/-- The tasks a thread has still to add. -/
def ThreadFunc.count : ThreadFunc → Nat
  | .counting count => count
  | .writing count => count
  | .stale => 0

structure Epoll.Inv (s : Epoll ι) : Prop where
  order : s.processed ++ s.head = s.added
  /-- `main` only waits with a notification to come, or with nothing in the list but what it
      missed -/
  notified : s.main = .waiting →
    s.ready ∨ (s.evfd = 0 ∧ ((∃ i count, s.threads i = .writing count) ∨ s.head = s.missed))
  share : ∀ i, s.threads i ≠ .stale → s.added.count i + (s.threads i).count = 3
  stale : ∀ i, s.threads i = .stale → s.main.destroyed = true ∧ s.added.count i < 3

variable {s : Epoll ι}

theorem Epoll.setThread_self (i : ι) (t : ThreadFunc) : (s.setThread i t).threads i = t :=
  Function.update_self ..

theorem Epoll.setThread_of_ne {i j : ι} (h : j ≠ i) (t : ThreadFunc) :
    (s.setThread i t).threads j = s.threads j :=
  Function.update_of_ne h ..

theorem Epoll.inv_init : (epoll : System (Epoll ι) _).init.Inv where
  order := rfl
  notified := fun _ => Or.inr ⟨rfl, Or.inr rfl⟩
  share := fun _ _ => rfl
  stale := nofun

/-- A thread that goes on with the `count` it has. -/
theorem Epoll.Inv.share_setThread (hs : s.Inv) {i : ι} {t : ThreadFunc}
    (hi : s.threads i ≠ .stale) (ht : t.count = (s.threads i).count) (j : ι)
    (hj : (s.setThread i t).threads j ≠ .stale) :
    s.added.count j + ((s.setThread i t).threads j).count = 3 := by
  by_cases hji : j = i
  · rw [hji, setThread_self, ht]
    exact hs.share i hi
  · rw [setThread_of_ne hji] at hj ⊢
    exact hs.share j hj

theorem Epoll.Inv.stale_setThread (hs : s.Inv) {i : ι} {t : ThreadFunc} (ht : t ≠ .stale) (j : ι)
    (hj : (s.setThread i t).threads j = .stale) :
    s.main.destroyed = true ∧ s.added.count j < 3 := by
  by_cases hji : j = i
  · rw [hji, setThread_self] at hj
    exact absurd hj ht
  · rw [setThread_of_ne hji] at hj
    exact hs.stale j hj

theorem Epoll.Inv.not_stale (hs : s.Inv) (hmutex : s.main.destroyed = false) (i : ι) :
    s.threads i ≠ .stale := fun hi => by
  rw [(hs.stale i hi).1] at hmutex
  cases hmutex

/-- A thread adds a task. -/
theorem Epoll.Inv.add (hs : s.Inv) {i : ι} {count : Nat} (hi : s.threads i = .counting (count + 1))
    (hmutex : s.main.destroyed = false) :
    ({ s with head := s.head ++ [i], added := s.added ++ [i] }.setThread i
      (.writing count)).Inv := by
  refine ⟨?_, fun hmain => ?_, fun j _ => ?_, fun j hj => ?_⟩
  · change s.processed ++ (s.head ++ [i]) = s.added ++ [i]
    rw [← List.append_assoc, hs.order]
  · -- the thread has the write for its task still in front of it
    rcases hs.notified hmain with hready | ⟨hzero, -⟩
    · exact Or.inl hready
    · exact Or.inr ⟨hzero, Or.inl ⟨i, count, setThread_self ..⟩⟩
  · change (s.added ++ [i]).count j + _ = 3
    have hshare := hs.share j (hs.not_stale hmutex j)
    by_cases hji : j = i
    · subst hji
      rw [hi, ThreadFunc.count] at hshare
      rw [setThread_self, ThreadFunc.count, List.count_append, List.count_singleton_self]
      omega
    · have hnone : [i].count j = 0 := List.count_eq_zero_of_not_mem (by simpa using hji)
      rw [setThread_of_ne hji, List.count_append, hnone]
      exact hshare
  · by_cases hji : j = i
    · rw [hji, setThread_self] at hj
      cases hj
    · rw [setThread_of_ne hji] at hj
      exact absurd hj (hs.not_stale hmutex j)

/-- A thread comes too late. -/
theorem Epoll.Inv.late (hs : s.Inv) {i : ι} {count : Nat}
    (hi : s.threads i = .counting (count + 1)) (hgone : s.main = .gone) :
    (s.setThread i .stale).Inv := by
  refine ⟨hs.order, fun hmain => ?_, fun j hj => ?_, fun j hj => ?_⟩
  · exact absurd (hgone.symm.trans hmain) nofun
  · by_cases hji : j = i
    · rw [hji, setThread_self] at hj
      exact absurd rfl hj
    · rw [setThread_of_ne hji] at hj ⊢
      exact hs.share j hj
  · by_cases hji : j = i
    · have hshare := hs.share i (hi ▸ nofun)
      rw [hi, ThreadFunc.count] at hshare
      rw [hji]
      change s.main.destroyed = true ∧ s.added.count i < 3
      exact ⟨by rw [hgone]; rfl, by omega⟩
    · rw [setThread_of_ne hji] at hj
      exact hs.stale j hj

/-- `main` goes on, without a thread at what it has destroyed so far. -/
theorem Epoll.Inv.main (hs : s.Inv) {s' : Epoll ι} (hmutex : s.main.destroyed = false)
    (hthreads : s'.threads = s.threads) (hadded : s'.added = s.added)
    (horder : s'.processed ++ s'.head = s'.added)
    (hnotified : s'.main = .waiting →
      s'.ready ∨ (s'.evfd = 0 ∧ ((∃ i count, s'.threads i = .writing count) ∨ s'.head = s'.missed))) :
    s'.Inv := by
  refine ⟨horder, hnotified, fun i hi => ?_, fun i hi => ?_⟩
  · rw [hthreads] at hi ⊢
    rw [hadded]
    exact hs.share i hi
  · rw [hthreads] at hi
    exact absurd hi (hs.not_stale hmutex i)

theorem Epoll.Inv.step (hs : s.Inv) {a : EpollAction ι} {s' : Epoll ι} (h : s.Step a s') :
    s'.Inv := by
  cases h with
  | add hi _ hmutex => exact hs.add hi hmutex
  | stale hi hgone => exact hs.late hi hgone
  | @write i count hi _ hmax =>
      refine ⟨hs.order, fun _ => Or.inl ⟨rfl, Nat.lt_add_left _ (by decide)⟩, ?_, ?_⟩
      · exact hs.share_setThread (hi ▸ nofun) (hi ▸ rfl)
      · exact hs.stale_setThread nofun
  | @full i count hi hmax =>
      refine ⟨hs.order, fun hmain => ?_, ?_, ?_⟩
      -- a counter that cannot take more is not zero, so its edge is still there
      · rcases hs.notified hmain with hready | ⟨hzero, -⟩
        · exact Or.inl hready
        · rw [hzero] at hmax
          exact absurd hmax (by decide)
      · exact hs.share_setThread (hi ▸ nofun) (hi ▸ rfl)
      · exact hs.stale_setThread nofun
  | @closed i count hi hgone =>
      refine ⟨hs.order, fun hmain => absurd (hgone.symm.trans hmain) nofun, ?_, ?_⟩
      · exact hs.share_setThread (hi ▸ nofun) (hi ▸ rfl)
      · exact hs.stale_setThread nofun
  | wait hmain _ => exact hs.main (hmain ▸ rfl) rfl rfl hs.order nofun
  | lock hmain => exact hs.main (hmain ▸ rfl) rfl rfl hs.order nofun
  | @process task rest hmain hhead =>
      refine hs.main (hmain ▸ rfl) rfl rfl ?_ fun h => absurd (hmain.symm.trans h) nofun
      rw [← hs.order, hhead, List.append_assoc, List.singleton_append]
  | unlock hmain _ => exact hs.main (hmain ▸ rfl) rfl rfl hs.order nofun
  | read hmain => exact hs.main (hmain ▸ rfl) rfl rfl hs.order fun _ => Or.inr ⟨rfl, Or.inr rfl⟩
  | leave hmain _ => exact hs.main (hmain ▸ rfl) rfl rfl hs.order nofun
  | destroy hmain => exact hs.main (hmain ▸ rfl) rfl rfl hs.order nofun
  | exit _ => exact ⟨hs.order, nofun, hs.share, fun i hi => ⟨rfl, (hs.stale i hi).2⟩⟩

theorem Epoll.inv_of_reachable (hs : Reachable epoll s) : s.Inv :=
  hs.invariant Epoll.Inv inv_init fun _ _ _ hs h => hs.step (.of_step h)

end Invariant

/-! ## At rest -/

section Rest

variable {ι : Type} [DecidableEq ι]

/-- The end with `main` in `epoll_wait`: every thread has added its tasks and returned, and what is
    not processed was in the list at the last `read`. -/
structure Epoll.Idle (s : Epoll ι) : Prop where
  waiting : s.main = .waiting
  threads : ∀ i, s.threads i = .counting 0
  added : ∀ i, s.added.count i = 3
  missed : s.head = s.missed
  processed : s.processed ++ s.missed = s.added

/-- The end of the process: the threads are where it ended them, with no more than their tasks added,
    and a thread that locked what `main` had destroyed had a task to add. -/
structure Epoll.Cut (s : Epoll ι) : Prop where
  returned : s.main = .returned
  added : ∀ i, s.added.count i ≤ 3
  stale : ∀ i, s.threads i = .stale → s.added.count i < 3
  processed : s.processed ++ s.head = s.added

variable {s : Epoll ι}

omit [DecidableEq ι] in
theorem Epoll.mainStep_none (h : s.mainStep = none) :
    (s.main = .waiting ∧ ¬ s.ready) ∨ s.main = .returned := by
  unfold mainStep at h
  split at h
  · next hmain =>
    split at h
    · cases h
    · next hready => exact Or.inl ⟨hmain, hready⟩
  · cases h
  · split at h
    · cases h
    · cases h
  · cases h
  · cases h
  · cases h
  · next hmain => exact Or.inr hmain

theorem Epoll.threadStep_none {i : ι} (h : s.threadStep i = none) (hmain : s.main = .waiting) :
    s.threads i = .counting 0 ∨ s.threads i = .stale := by
  simp only [threadStep, hmain] at h
  split at h
  · next hi => exact Or.inl hi
  · cases h
  · cases h
  · next hi => exact Or.inr hi

/-- A thread that has returned has added its tasks. -/
theorem Epoll.Inv.count_of_counting (hs : s.Inv) {i : ι} (hi : s.threads i = .counting 0) :
    s.added.count i = 3 := by
  have hshare := hs.share i (hi ▸ nofun)
  rwa [hi] at hshare

theorem Epoll.Inv.idle (hs : s.Inv) (hrest : AtRest epoll EpollAction.own s)
    (hin : s.main.timedOut = false) : s.Idle := by
  obtain ⟨hmain, hready⟩ := (mainStep_none (hrest .main rfl)).resolve_right
    fun hreturned => by rw [hreturned] at hin; cases hin
  have hthreads : ∀ i, s.threads i = .counting 0 := by
    intro i
    exact (threadStep_none (hrest (.thread i) rfl) hmain).resolve_right
      (hs.not_stale (hmain ▸ rfl) i)
  -- neither a notification nor a write is to come, so the list is as `main` left it
  have hmissed : s.head = s.missed := by
    rcases hs.notified hmain with hnow | ⟨-, ⟨i, count, hi⟩ | heq⟩
    · exact absurd hnow hready
    · exact absurd ((hthreads i).symm.trans hi) nofun
    · exact heq
  exact ⟨hmain, hthreads, fun i => hs.count_of_counting (hthreads i), hmissed,
    hmissed ▸ hs.order⟩

theorem Epoll.Inv.cut (hs : s.Inv) (hrest : AtRest epoll EpollAction.own s)
    (hout : s.main.timedOut = true) : s.Cut := by
  have hreturned := (mainStep_none (hrest .main rfl)).resolve_left
    fun hwaiting => by rw [hwaiting.1] at hout; cases hout
  refine ⟨hreturned, fun i => ?_, fun i hi => (hs.stale i hi).2, hs.order⟩
  by_cases hi : s.threads i = .stale
  · exact Nat.le_of_lt (hs.stale i hi).2
  · have hshare := hs.share i hi
    omega

/-- `main` neither leaves its loop by itself nor comes back to it. -/
theorem Epoll.Step.timedOut_eq {a : EpollAction ι} {s' : Epoll ι} (ha : a.own = true)
    (h : s.Step a s') : s'.main.timedOut = s.main.timedOut := by
  cases h with
  | add | stale | write | full | closed | process => rfl
  | wait hmain | lock hmain | unlock hmain | read hmain | destroy hmain | exit hmain =>
      rw [hmain]
      rfl
  | leave => cases ha

theorem Epoll.timedOut_of_ownRun {as : List (EpollAction ι)} {t : Epoll ι}
    (hrun : OwnRun epoll EpollAction.own s as t) : t.main.timedOut = s.main.timedOut :=
  hrun.keeps (P := fun u => u.main.timedOut = s.main.timedOut)
    (fun _ _ _ ha hu h => ((Step.of_step h).timedOut_eq ha).trans hu) rfl

end Rest

/-! ## The length of a run -/

/-- The steps a thread has in front of it, with what its tasks cost `main`. -/
def ThreadFunc.weight : ThreadFunc → Nat
  | .counting count => 7 * count
  | .writing count => 7 * count + 5
  | .stale => 0

/-- The steps of `main` to its next `epoll_wait`, but for the list, or to its end. -/
def EpollMain.weight : EpollMain → Nat
  | .readable => 3
  | .draining => 2
  | .unlocked => 1
  | .left => 2
  | .gone => 1
  | _ => 0

section Length

variable {ι : Type} [DecidableEq ι] [Fintype ι]

def Epoll.potential (s : Epoll ι) : Nat :=
  total s.threads ThreadFunc.weight + 4 * s.edge.toNat + s.main.weight +
    s.head.length

/-- Only the time-out is not paid for. -/
def EpollAction.price {ι : Type} : EpollAction ι → Nat
  | .timeout => 3
  | _ => 0

theorem Epoll.potential_setThread (s : Epoll ι) {i : ι} {t : ThreadFunc} (hi : s.threads i = t)
    (u : ThreadFunc) :
    (s.setThread i u).potential + t.weight = s.potential + u.weight := by
  have htotal := total_update hi u ThreadFunc.weight
  simp only [potential, setThread]
  omega

theorem Epoll.Step.lowers {s s' : Epoll ι} {a : EpollAction ι} (h : s.Step a s') :
    s'.potential + 1 ≤ s.potential + a.price := by
  cases h with
  | @add i count hi _ _ =>
      have hthread := potential_setThread
        { s with head := s.head ++ [i], added := s.added ++ [i] } hi (.writing count)
      have hlist : ({ s with head := s.head ++ [i], added := s.added ++ [i] } : Epoll ι).potential
          = s.potential + 1 := by
        simp only [potential, List.length_append, List.length_singleton, Nat.add_assoc]
      rw [hlist] at hthread
      simp only [ThreadFunc.weight] at hthread
      omega
  | @stale i count hi _ =>
      have hthread := s.potential_setThread hi .stale
      simp only [ThreadFunc.weight] at hthread
      omega
  | @write i count hi _ _ =>
      have hthread := potential_setThread
        { s with evfd := s.evfd + eventfdValue, edge := true } hi (.counting count)
      have hedge : ({ s with evfd := s.evfd + eventfdValue, edge := true } : Epoll ι).potential
          ≤ s.potential + 4 := by
        simp only [potential, Bool.toNat_true]
        omega
      simp only [ThreadFunc.weight] at hthread
      omega
  | @full i count hi _ | @closed i count hi _ =>
      have hthread := s.potential_setThread hi (.counting count)
      simp only [ThreadFunc.weight] at hthread
      omega
  | wait hmain hready =>
      simp only [potential, hmain, hready.1, EpollMain.weight, Bool.toNat_true, Bool.toNat_false]
      omega
  | lock hmain =>
      simp only [potential, hmain, EpollMain.weight]
      omega
  | process hmain hhead =>
      simp only [potential, hmain, hhead, EpollMain.weight, List.length_cons]
      omega
  | unlock hmain _ =>
      simp only [potential, hmain, EpollMain.weight]
      omega
  | read hmain =>
      simp only [potential, hmain, EpollMain.weight]
      omega
  | leave hmain _ =>
      simp only [potential, hmain, EpollMain.weight, EpollAction.price]
      omega
  | destroy hmain =>
      simp only [potential, hmain, EpollMain.weight]
      omega
  | exit hmain =>
      simp only [potential, hmain, EpollMain.weight]
      omega

theorem Epoll.potential_epoll :
    Potential (epoll : System (Epoll ι) _) potential EpollAction.price where
  lowers := fun _ _ _ _ h => (Step.of_step h).lowers

variable {s : Epoll ι}

/-- **What is left.** From every state of every run the threads and `main` come to rest by
    themselves. Unless `main` has timed out, all tasks are added then, and all are processed in the
    order they were added but those that were in the list at the last `read` of the eventfd. If it
    has, it returns. -/
theorem epoll_settles (hs : Reachable epoll s) :
    Settles epoll EpollAction.own s.potential
      (fun t => (s.main.timedOut = false → t.Idle) ∧ (s.main.timedOut = true → t.Cut)) s := by
  refine Epoll.potential_epoll.settles (fun a ha => ?_) hs fun as t hrun hrest => ?_
  · cases a with
    | timeout => cases ha
    | thread | main => rfl
  · have hinv := Epoll.inv_of_reachable (hrun.reachable hs)
    have hmain := Epoll.timedOut_of_ownRun hrun
    exact ⟨fun h => hinv.idle hrest (hmain.trans h), fun h => hinv.cut hrest (hmain.trans h)⟩

end Length

/-- The third task is added behind the unlock, its notification read away. -/
def strandedRun : List (EpollAction Unit) :=
  [.thread (), .thread (), .thread (), .thread (), .main, .main, .main, .main, .main, .thread (),
    .thread (), .main]

theorem epoll_settles_stranded : ∃ s : Epoll Unit, epoll.run epoll.init strandedRun = some s ∧
    s.processed = [(), ()] ∧ s.head = [()] ∧ ¬ s.ready ∧
    Settles epoll EpollAction.own s.potential
      (fun t => (s.main.timedOut = false → t.Idle) ∧ (s.main.timedOut = true → t.Cut)) s := by
  obtain ⟨s, hs, hprocessed, hhead, hready⟩ : ∃ s : Epoll Unit,
      epoll.run epoll.init strandedRun = some s ∧ s.processed = [(), ()] ∧ s.head = [()] ∧
        ¬ s.ready := ⟨_, rfl, rfl, rfl, by decide⟩
  exact ⟨s, hs, hprocessed, hhead, hready, epoll_settles (Reachable.init.run hs)⟩

/-! ## Without the gap -/

section Gapless

variable {ι : Type}

def ThreadFunc.isWriting : ThreadFunc → Bool
  | .writing _ => true
  | _ => false

/-- No thread adds a task between an unlock and the `read` behind it. -/
def Epoll.Gapless (s : Epoll ι) : EpollAction ι → Prop
  | .thread i => s.main = .unlocked → (s.threads i).isWriting = true
  | _ => True

instance (s : Epoll ι) (a : EpollAction ι) : Decidable (s.Gapless a) :=
  match a with
  | .thread i =>
    inferInstanceAs (Decidable (s.main = .unlocked → (s.threads i).isWriting = true))
  | .main => inferInstanceAs (Decidable True)
  | .timeout => inferInstanceAs (Decidable True)

variable [DecidableEq ι]

/-- The runs in which nothing is added in the gap. -/
def gaplessEpoll : System (Epoll ι) (EpollAction ι) := epoll.restrict Epoll.Gapless

variable {s : Epoll ι}

structure Epoll.Kept (s : Epoll ι) : Prop where
  unlocked : s.main = .unlocked → s.head = []
  missed : s.missed = []

theorem Epoll.Kept.step (hs : s.Kept) {a : EpollAction ι} {s' : Epoll ι} (ha : s.Gapless a)
    (h : s.Step a s') : s'.Kept := by
  cases h with
  | add hi _ _ =>
      refine ⟨fun hmain => ?_, hs.missed⟩
      have hwriting := ha hmain
      rw [hi] at hwriting
      cases hwriting
  | stale | write | full | closed => exact ⟨hs.unlocked, hs.missed⟩
  | wait | lock | leave | destroy | exit => exact ⟨nofun, hs.missed⟩
  | process hmain _ => exact ⟨fun h => absurd (hmain.symm.trans h) nofun, hs.missed⟩
  | unlock _ hhead => exact ⟨fun _ => hhead, hs.missed⟩
  | read hmain => exact ⟨nofun, hs.unlocked hmain⟩

theorem Epoll.kept_of_reachable (hs : Reachable gaplessEpoll s) : s.Kept :=
  hs.invariant Epoll.Kept ⟨fun _ => rfl, rfl⟩ fun _ _ _ hs h =>
    have hstep := System.restrict_step.1 h
    hs.step hstep.1 (.of_step hstep.2)

/-- A gap ends by itself, so what is at rest without gaps is at rest. -/
theorem Epoll.atRest_of_gapless (h : AtRest gaplessEpoll EpollAction.own s) :
    AtRest epoll EpollAction.own s := by
  have hmain : s.mainStep = none := (System.restrict_of_pos trivial).symm.trans (h .main rfl)
  intro a ha
  cases a with
  | main => exact hmain
  | timeout => cases ha
  | thread i =>
      -- at `unlocked` it would be `main` that can go on
      have hgap : s.Gapless (.thread i) := by
        intro hunlocked
        rw [mainStep, hunlocked] at hmain
        cases hmain
      exact (System.restrict_of_pos hgap).symm.trans (h (.thread i) rfl)

/-- **Nothing is left.** Where no task is added between an unlock and the `read` behind it, and
    `main` has not timed out, the threads and `main` come to rest by themselves with every task
    added and processed, in the order of the additions. -/
theorem epoll_gapless_settles [Fintype ι] (hs : Reachable gaplessEpoll s)
    (hin : s.main.timedOut = false) :
    Settles gaplessEpoll EpollAction.own s.potential
      (fun t => t.main = .waiting ∧ (∀ i, t.threads i = .counting 0 ∧ t.processed.count i = 3) ∧
        t.head = [] ∧ t.processed = t.added) s := by
  refine Epoll.potential_epoll.restrict.settles (fun a ha => ?_) hs fun as t hrun hrest => ?_
  · cases a with
    | timeout => cases ha
    | thread | main => rfl
  · have ht := hrun.reachable hs
    have hrun' : OwnRun epoll EpollAction.own s as t := ⟨hrun.1, System.restrict_run hrun.2⟩
    have hidle := (Epoll.inv_of_reachable ht.of_restrict).idle (Epoll.atRest_of_gapless hrest)
      ((Epoll.timedOut_of_ownRun hrun').trans hin)
    have hmissed := (Epoll.kept_of_reachable ht).missed
    have hprocessed : t.processed = t.added := by
      rw [← hidle.processed, hmissed, List.append_nil]
    exact ⟨hidle.waiting, fun i => ⟨hidle.threads i, hprocessed ▸ hidle.added i⟩,
      hidle.missed.trans hmissed, hprocessed⟩

end Gapless

theorem epoll_gapless_settles_two :
    Settles gaplessEpoll EpollAction.own 42
      (fun t : Epoll Bool => t.main = .waiting ∧
        (∀ i, t.threads i = .counting 0 ∧ t.processed.count i = 3) ∧
        t.head = [] ∧ t.processed = t.added) gaplessEpoll.init :=
  epoll_gapless_settles Reachable.init rfl

end Ryze
