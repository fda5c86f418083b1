import Mathlib.Data.List.Nodup
import Ryze.Ev.ThreadPool

set_option autoImplicit false

/-! # Destroying the pool

`ev_thread_pool_destroy` raises the status of each thread once, and a thread raises it once more when
it leaves its loop; so a status of 2 says that the thread has left, and what is freed is in nobody's
section any more. It is not left alone: the worker's last signal may be still to come, and so may what
`ev_task_info_add` does outside of the section. -/

namespace Ryze

open Mutexes Transition

/-- The worker has left its loop. -/
def TaskPhase.isGone {τ : Type} : TaskPhase τ → Bool
  | .exiting => true
  | .exited => true
  | _ => false

namespace DestroyPhase

variable {ι : Type}

/-- The threads that the loop it is in has not gone over yet. -/
def left : DestroyPhase ι → List ι
  | .sweep rest => rest
  | .sweeping i rest => i :: rest
  | .swept _ rest => rest
  | .reap rest => rest
  | .reaping i rest => i :: rest
  | .reaped i rest => i :: rest
  | _ => []

def inFirst : DestroyPhase ι → Bool
  | .sweep _ => true
  | .sweeping _ _ => true
  | .swept _ _ => true
  | _ => false

variable [DecidableEq ι]

/-- The first loop has raised the status of `i`. -/
def hasSwept (order : List ι) (p : DestroyPhase ι) (i : ι) : Bool :=
  match p with
  | .out => false
  | _ => i ∈ order ∧ (p.inFirst → i ∉ p.left)

/-- The second loop has freed `i`. -/
def hasFreed (order : List ι) (p : DestroyPhase ι) (i : ι) : Bool :=
  match p with
  | .out => false
  | _ => p.inFirst = false ∧ i ∈ order ∧ i ∉ p.left

end DestroyPhase

section Freed

variable {ι κ τ : Type} [DecidableEq ι]

/-- What the status of a thread and its being freed tell, where the first loop has raised its status
    or not and the second one freed it or not. -/
structure EvThreadInfo.Agrees (info : EvThreadInfo ι κ τ) (hasSwept hasFreed : Bool) : Prop where
  status_eq : info.status = hasSwept.toNat + info.phase.isGone.toNat
  gone_swept : info.phase.isGone = true → hasSwept = true
  freed_eq : info.freed = hasFreed
  freed_gone : info.freed = true → info.phase.isGone = true
  freed_mutex : info.freed = true → info.mutex = none

/-- A step on `info` that neither raises its status nor frees it. -/
structure EvThreadInfo.Keeps (info x : EvThreadInfo ι κ τ) : Prop where
  status_eq : x.status = info.status
  gone_eq : x.phase.isGone = info.phase.isGone
  freed_eq : x.freed = info.freed
  mutex_freed : info.freed = true → info.mutex = none → x.mutex = none

namespace EvThreadInfo

omit [DecidableEq ι]

variable {info x : EvThreadInfo ι κ τ}

theorem Agrees.keep {hasSwept hasFreed : Bool} (h : info.Agrees hasSwept hasFreed)
    (hx : info.Keeps x) : x.Agrees hasSwept hasFreed := by
  obtain ⟨hstatus, hgone, hfreed, hmutex⟩ := hx
  refine ⟨?_, ?_, ?_, ?_, fun hf => ?_⟩
  · rw [hstatus, hgone]
    exact h.status_eq
  · rw [hgone]
    exact h.gone_swept
  · rw [hfreed]
    exact h.freed_eq
  · rw [hfreed, hgone]
    exact h.freed_gone
  · rw [hfreed] at hf
    exact hmutex hf (h.freed_mutex hf)

theorem Keeps.refl (info : EvThreadInfo ι κ τ) : info.Keeps info := ⟨rfl, rfl, rfl, fun _ h => h⟩

theorem Keeps.lock {t : PoolThread ι κ} (h : info.lock t = some x) : info.Keeps x := by
  unfold EvThreadInfo.lock at h
  split at h
  · next hfree =>
      cases h
      rw [Bool.and_eq_true, Bool.not_eq_true'] at hfree
      refine ⟨rfl, rfl, rfl, fun hfreed => ?_⟩
      rw [hfree.2] at hfreed
      cases hfreed
  · cases h

theorem Keeps.signal (info : EvThreadInfo ι κ τ) : info.Keeps info.signal := by
  rcases info.signal_cases with ⟨hphase, heq⟩ | ⟨_, heq⟩
  · rw [heq]
    exact ⟨rfl, by rw [hphase]; rfl, rfl, fun _ h => h⟩
  · rw [heq]
    exact Keeps.refl info

theorem Keeps.unlock (info : EvThreadInfo ι κ τ) (tasks : List τ) :
    info.Keeps { info with tasks := tasks, mutex := none } :=
  ⟨rfl, rfl, rfl, fun _ _ => rfl⟩

/-- A worker's step keeps what the others look at, but for the one with which it leaves its loop. -/
theorem workerStep_keeps {i : ι} (h : info.workerStep i = some x) : info.Keeps x ∨
    (info.status ≠ 0 ∧ info.phase = .tested ∧
      x = { info with status := info.status + 1, mutex := none, phase := .exiting }) := by
  unfold EvThreadInfo.workerStep at h
  split at h
  · next hphase =>
      obtain ⟨y, hy, rfl⟩ := Option.map_eq_some_iff.1 h
      obtain ⟨hstatus, hgone, hfreed, hmutex⟩ := Keeps.lock hy
      exact Or.inl ⟨hstatus, by rw [hphase]; rfl, hfreed, hmutex⟩
  · next hphase =>
      split at h
      · cases h
        exact Or.inl ⟨rfl, by rw [hphase]; rfl, rfl, fun _ _ => rfl⟩
      · cases h
        exact Or.inl ⟨rfl, by rw [hphase]; rfl, rfl, fun _ hm => hm⟩
  · cases h
  · next hphase =>
      obtain ⟨y, hy, rfl⟩ := Option.map_eq_some_iff.1 h
      obtain ⟨hstatus, hgone, hfreed, hmutex⟩ := Keeps.lock hy
      exact Or.inl ⟨hstatus, by rw [hphase]; rfl, hfreed, hmutex⟩
  · next hphase =>
      split at h
      · split at h
        · cases h
          exact Or.inl ⟨rfl, by rw [hphase]; rfl, rfl, fun _ hm => hm⟩
        · next hstatus =>
            cases h
            exact Or.inr ⟨hstatus, hphase, rfl⟩
      · cases h
        exact Or.inl ⟨rfl, by rw [hphase]; rfl, rfl, fun _ _ => rfl⟩
  · next hphase =>
      cases h
      exact Or.inl ⟨rfl, by rw [hphase]; rfl, rfl, fun _ hm => hm⟩
  · next hphase =>
      cases h
      exact Or.inl ⟨rfl, by rw [hphase]; rfl, rfl, fun _ hm => hm⟩
  · cases h

/-- It leaves its loop only when the first loop of the destroyer has been there. -/
theorem Agrees.exit {hasSwept hasFreed : Bool} (h : info.Agrees hasSwept hasFreed)
    (hstatus : info.status ≠ 0) (hphase : info.phase = .tested) :
    EvThreadInfo.Agrees ({ info with
      status := info.status + 1
      mutex := none
      phase := .exiting } : EvThreadInfo ι κ τ) hasSwept hasFreed := by
  have heq := h.status_eq
  rw [hphase, show (TaskPhase.tested : TaskPhase τ).isGone = false from rfl] at heq
  have hswept : hasSwept = true := by
    cases hasSwept with
    | false => exact absurd heq hstatus
    | true => rfl
  exact ⟨congrArg (· + 1) heq, fun _ => hswept, h.freed_eq, fun _ => rfl, fun _ => rfl⟩

/-- A status is raised once. -/
theorem Agrees.sweep (h : info.Agrees false false) (tasks : List τ) :
    EvThreadInfo.Agrees ({ info with
      status := info.status + 1
      tasks := tasks
      mutex := none } : EvThreadInfo ι κ τ) true false := by
  refine ⟨?_, fun _ => rfl, h.freed_eq, h.freed_gone, fun _ => rfl⟩
  simp only
  rw [h.status_eq, Bool.toNat_false, Bool.toNat_true]
  omega

/-- A status of 2 is that of a thread that has left its loop. -/
theorem Agrees.reap {hasSwept hasFreed : Bool} (h : info.Agrees hasSwept hasFreed)
    (hstatus : info.status = 2) :
    EvThreadInfo.Agrees ({ info with mutex := none, freed := true } : EvThreadInfo ι κ τ)
      hasSwept true := by
  have hgone : info.phase.isGone = true := by
    have heq := h.status_eq
    rw [hstatus] at heq
    have hle := Bool.toNat_le hasSwept
    cases hg : info.phase.isGone with
    | false =>
        rw [hg, Bool.toNat_false] at heq
        omega
    | true => rfl
  exact ⟨h.status_eq, h.gone_swept, rfl, fun _ => hgone, fun _ => rfl⟩

end EvThreadInfo

namespace EvThreadPool

/-- Each thread agrees with where the destroyer is. -/
structure Reaps (order : List ι) (s : EvThreadPool ι κ τ) : Prop where
  left_suffix : s.destroyer.left <:+ order
  agrees : ∀ i, (s.infos i).Agrees (s.destroyer.hasSwept order i) (s.destroyer.hasFreed order i)

variable {order : List ι} {s s' : EvThreadPool ι κ τ}

omit [DecidableEq ι] in
theorem head_spec (hnodup : order.Nodup) {i : ι} {rest : List ι} (h : i :: rest <:+ order) :
    i ∈ order ∧ i ∉ rest :=
  ⟨h.subset List.mem_cons_self, (List.nodup_cons.1 (hnodup.sublist h.sublist)).1⟩

namespace Reaps

/-- A step on one thread, the destroyer having swept and freed the same others. -/
theorem set (h : s.Reaps order) {i : ι} {x : EvThreadInfo ι κ τ}
    (hinfos : s'.infos = (s.set i x).infos) (hleft : s'.destroyer.left <:+ order)
    (hx : x.Agrees (s'.destroyer.hasSwept order i) (s'.destroyer.hasFreed order i))
    (hswept : ∀ j, j ≠ i → s'.destroyer.hasSwept order j = s.destroyer.hasSwept order j)
    (hfreed : ∀ j, j ≠ i → s'.destroyer.hasFreed order j = s.destroyer.hasFreed order j) :
    s'.Reaps order := by
  refine ⟨hleft, fun j => ?_⟩
  rw [hinfos, EvThreadPool.set]
  by_cases hj : j = i
  · subst hj
    simp only [Function.update_self]
    exact hx
  · simp only [Function.update_of_ne hj]
    rw [hswept j hj, hfreed j hj]
    exact h.agrees j

/-- A step that keeps a thread, the destroyer having swept and freed the same ones. -/
theorem keep (h : s.Reaps order) {i : ι} {x : EvThreadInfo ι κ τ} (hx : (s.infos i).Keeps x)
    (hinfos : s'.infos = (s.set i x).infos) (hleft : s'.destroyer.left <:+ order)
    (hswept : ∀ j, s'.destroyer.hasSwept order j = s.destroyer.hasSwept order j)
    (hfreed : ∀ j, s'.destroyer.hasFreed order j = s.destroyer.hasFreed order j) :
    s'.Reaps order := by
  refine h.set hinfos hleft ?_ (fun j _ => hswept j) fun j _ => hfreed j
  rw [hswept, hfreed]
  exact (h.agrees i).keep hx

theorem worker (h : s.Reaps order) {i : ι} {x : EvThreadInfo ι κ τ}
    (hstep : (s.infos i).workerStep i = some x) : (s.set i x).Reaps order := by
  rcases EvThreadInfo.workerStep_keeps hstep with hkeeps | ⟨hstatus, hphase, rfl⟩
  · exact h.keep hkeeps rfl h.left_suffix (fun _ => rfl) fun _ => rfl
  · exact h.set rfl h.left_suffix ((h.agrees i).exit hstatus hphase) (fun _ _ => rfl) fun _ _ => rfl

theorem adder [DecidableEq κ] (h : s.Reaps order) {k : κ} (hstep : s.adderStep k = some s') :
    s'.Reaps order := by
  cases Adds.of_step hstep with
  | lock _ hx =>
      exact h.keep (EvThreadInfo.Keeps.lock hx) rfl h.left_suffix (fun _ => rfl) fun _ => rfl
  | append =>
      exact h.keep (EvThreadInfo.Keeps.unlock _ _) rfl h.left_suffix (fun _ => rfl) fun _ => rfl
  | signal =>
      exact h.keep (EvThreadInfo.Keeps.signal _) rfl h.left_suffix (fun _ => rfl) fun _ => rfl

/-- The destroyer moves on and touches no thread. -/
theorem move (h : s.Reaps order) {p : DestroyPhase ι} (hleft : p.left <:+ order)
    (hswept : ∀ j, p.hasSwept order j = s.destroyer.hasSwept order j)
    (hfreed : ∀ j, p.hasFreed order j = s.destroyer.hasFreed order j) :
    (s.moveDestroyer p).Reaps order := by
  refine ⟨hleft, fun j => ?_⟩
  change (s.infos j).Agrees (p.hasSwept order j) (p.hasFreed order j)
  rw [hswept, hfreed]
  exact h.agrees j

theorem sweep (hnodup : order.Nodup) (h : s.Reaps order) {i : ι} {rest : List ι}
    (hphase : s.destroyer = .sweeping i rest) :
    ((s.set i { s.infos i with
      status := (s.infos i).status + 1
      tasks := []
      mutex := none }).moveDestroyer (.swept i rest)).Reaps order := by
  have hsuffix : i :: rest <:+ order := by
    have hleft := h.left_suffix
    rw [hphase] at hleft
    exact hleft
  obtain ⟨hmem, hrest⟩ := head_spec hnodup hsuffix
  have hbefore := h.agrees i
  rw [hphase] at hbefore
  refine h.set rfl ((List.suffix_cons i rest).trans hsuffix) ?_ (fun j hj => ?_) fun j hj => ?_
  · have hswept : (DestroyPhase.swept i rest).hasSwept order i = true := by
      simp [DestroyPhase.hasSwept, DestroyPhase.left, hmem, hrest]
    have hunswept : (DestroyPhase.sweeping i rest).hasSwept order i = false := by
      simp [DestroyPhase.hasSwept, DestroyPhase.inFirst, DestroyPhase.left]
    have hunfreed : (DestroyPhase.sweeping i rest).hasFreed order i = false := by
      simp [DestroyPhase.hasFreed, DestroyPhase.inFirst]
    rw [hunswept, hunfreed] at hbefore
    change EvThreadInfo.Agrees _ ((DestroyPhase.swept i rest).hasSwept order i)
      ((DestroyPhase.swept i rest).hasFreed order i)
    rw [hswept, show (DestroyPhase.swept i rest).hasFreed order i = false by
      simp [DestroyPhase.hasFreed, DestroyPhase.inFirst]]
    exact hbefore.sweep []
  · rw [hphase]
    simp [moveDestroyer, DestroyPhase.hasSwept, DestroyPhase.inFirst, DestroyPhase.left, hj]
  · rw [hphase]
    simp [moveDestroyer, DestroyPhase.hasFreed, DestroyPhase.inFirst]

theorem reap (hnodup : order.Nodup) (h : s.Reaps order) {i : ι} {rest : List ι}
    (hphase : s.destroyer = .reaping i rest) (hstatus : (s.infos i).status = 2) :
    ((s.set i { s.infos i with mutex := none, freed := true }).moveDestroyer (.reap rest)).Reaps
      order := by
  have hsuffix : i :: rest <:+ order := by
    have hleft := h.left_suffix
    rw [hphase] at hleft
    exact hleft
  obtain ⟨hmem, hrest⟩ := head_spec hnodup hsuffix
  have hbefore := h.agrees i
  rw [hphase] at hbefore
  refine h.set rfl ((List.suffix_cons i rest).trans hsuffix) ?_ (fun j hj => ?_) fun j hj => ?_
  · have hfreed : (DestroyPhase.reap rest).hasFreed order i = true := by
      simp [DestroyPhase.hasFreed, DestroyPhase.inFirst, DestroyPhase.left, hmem, hrest]
    change EvThreadInfo.Agrees _ ((DestroyPhase.reap rest).hasSwept order i)
      ((DestroyPhase.reap rest).hasFreed order i)
    have hsame : (DestroyPhase.reap rest).hasSwept order i
        = (DestroyPhase.reaping i rest).hasSwept order i := by
      simp [DestroyPhase.hasSwept, DestroyPhase.inFirst]
    rw [hfreed, hsame]
    exact hbefore.reap hstatus
  · rw [hphase]
    simp [moveDestroyer, DestroyPhase.hasSwept, DestroyPhase.inFirst]
  · rw [hphase]
    simp [moveDestroyer, DestroyPhase.hasFreed, DestroyPhase.inFirst, DestroyPhase.left, hj]

theorem destroyer (hnodup : order.Nodup) (h : s.Reaps order)
    (hstep : s.destroyerStep order = some s') : s'.Reaps order := by
  have hsuffix := h.left_suffix
  cases Destroys.of_step hstep with
  | start hphase =>
      refine h.move List.suffix_rfl (fun j => ?_) fun j => ?_
      · rw [hphase]
        simp [DestroyPhase.hasSwept, DestroyPhase.inFirst, DestroyPhase.left]
      · rw [hphase]
        simp [DestroyPhase.hasFreed, DestroyPhase.inFirst]
  | turn hphase =>
      refine h.move List.suffix_rfl (fun j => ?_) fun j => ?_
      · rw [hphase]
        simp [DestroyPhase.hasSwept, DestroyPhase.inFirst, DestroyPhase.left]
      · rw [hphase]
        simp [DestroyPhase.hasFreed, DestroyPhase.inFirst, DestroyPhase.left]
  | drop hphase => exact h.sweep hnodup hphase
  | finish hphase =>
      refine h.move List.nil_suffix ?_ ?_ <;>
        · rw [hphase]
          exact fun _ => rfl
  | free hphase hstatus => exact h.reap hnodup hphase hstatus
  -- no other step changes what is swept and what is freed
  | lock hphase hx | relock hphase hx =>
      rw [hphase] at hsuffix
      refine h.keep (EvThreadInfo.Keeps.lock hx) rfl hsuffix ?_ ?_ <;>
        · rw [hphase]
          exact fun _ => rfl
  | unlock hphase hstatus =>
      rw [hphase] at hsuffix
      refine h.keep (EvThreadInfo.Keeps.unlock _ _) rfl hsuffix ?_ ?_ <;>
        · rw [hphase]
          exact fun _ => rfl
  | signal hphase | resignal hphase =>
      rw [hphase] at hsuffix
      refine h.keep (EvThreadInfo.Keeps.signal _) rfl hsuffix ?_ ?_ <;>
        · rw [hphase]
          exact fun _ => rfl

end Reaps

end EvThreadPool

variable [DecidableEq κ]

theorem EvThreadPool.Reaps.step {order : List ι} (hnodup : order.Nodup) {s s' : EvThreadPool ι κ τ}
    {a : PoolAction ι κ τ} (h : s.Reaps order) (hstep : (threadPool order).step s a = some s') :
    s'.Reaps order := by
  cases a with
  | worker i =>
      obtain ⟨x, hx, rfl⟩ := Option.map_eq_some_iff.1 hstep
      exact h.worker hx
  | wake i =>
      unfold threadPool at hstep
      simp only at hstep
      split at hstep
      · next hphase =>
          cases hstep
          rw [← EvThreadInfo.signal_blocked hphase]
          exact h.keep (EvThreadInfo.Keeps.signal _) rfl h.left_suffix (fun _ => rfl) fun _ => rfl
      · cases hstep
  | add k i task =>
      unfold threadPool at hstep
      simp only at hstep
      split at hstep
      · cases hstep
        exact ⟨h.left_suffix, h.agrees⟩
      · cases hstep
  | adder k => exact h.adder hstep
  | destroyer => exact h.destroyer hnodup hstep

theorem EvThreadPool.Reaps.init (order : List ι) :
    EvThreadPool.Reaps order
      (threadPool order : System (EvThreadPool ι κ τ) (PoolAction ι κ τ)).init where
  left_suffix := List.nil_suffix
  agrees := fun _ => ⟨rfl, fun h => (nomatch h), rfl, fun h => (nomatch h), fun _ => rfl⟩

theorem EvThreadPool.Reaps.of_reachable {order : List ι} (hnodup : order.Nodup)
    {s : EvThreadPool ι κ τ} (hs : Reachable (threadPool order) s) : s.Reaps order :=
  hs.invariant (EvThreadPool.Reaps order) (EvThreadPool.Reaps.init order)
    fun _ _ _ h hstep => h.step hnodup hstep

/-- The `struct ev_thread_info` that the next step of a thread in `ev_task_info_add` is on. -/
def AddPhase.touches : AddPhase ι τ → Option ι
  | .out => none
  | .called i _ => some i
  | .locked i _ => some i
  | .added i => some i

/-- The one that the next step of the destroyer is on. -/
def DestroyPhase.touches : DestroyPhase ι → Option ι
  | .sweep (i :: _) => some i
  | .sweeping i _ => some i
  | .swept i _ => some i
  | .reap (i :: _) => some i
  | .reaping i _ => some i
  | .reaped i _ => some i
  | _ => none

/-- The one that the next step of a thread is on. -/
def EvThreadPool.touches (s : EvThreadPool ι κ τ) : PoolThread ι κ → Option ι
  | .worker i =>
    match (s.infos i).phase with
    | .running _ => none
    | .exited => none
    | _ => some i
  | .adder k => (s.adder k).touches
  | .destroyer => s.destroyer.touches

theorem DestroyPhase.touches_unfreed {order : List ι} {p : DestroyPhase ι} {i : ι}
    (h : p.touches = some i) : p.hasFreed order i = false := by
  unfold DestroyPhase.touches at h
  split at h <;> cases h <;>
    simp [DestroyPhase.hasFreed, DestroyPhase.inFirst, DestroyPhase.left]

omit [DecidableEq ι] in
theorem AddPhase.touches_cases {p : AddPhase ι τ} {i : ι} (h : p.touches = some i) :
    (∃ task, p = .called i task) ∨ (∃ task, p = .locked i task) ∨ p = .added i := by
  cases p with
  | out => cases h
  | called j task =>
      cases h
      exact Or.inl ⟨task, rfl⟩
  | locked j task =>
      cases h
      exact Or.inr (Or.inl ⟨task, rfl⟩)
  | added j =>
      cases h
      exact Or.inr (Or.inr rfl)

omit [DecidableEq ι] [DecidableEq κ] in
/-- A worker touches its own thread only, and none once it has exited. -/
theorem EvThreadPool.touches_worker {s : EvThreadPool ι κ τ} {i j : ι}
    (h : s.touches (.worker j) = some i) : j = i ∧ (s.infos i).phase ≠ .exited := by
  simp only [touches] at h
  split at h
  · cases h
  · cases h
  · next _ hexited =>
      cases h
      exact ⟨rfl, hexited⟩

/-- **What is freed.** In every run a thread that was freed has left its loop, nobody holds its mutex
    and nobody is in a section of it; all that may still touch it is the last signal of its worker, and
    a call of `ev_task_info_add`, in front of its lock or in front of its signal. When the pool is
    destroyed, all of its threads are freed. -/
theorem threadPool_freed {order : List ι} (hnodup : order.Nodup) {s : EvThreadPool ι κ τ}
    (hs : Reachable (threadPool order) s) :
    (∀ i, (s.infos i).freed = true →
      ((s.infos i).phase = .exiting ∨ (s.infos i).phase = .exited) ∧ (s.infos i).mutex = none ∧
        (∀ t, s.inside t ≠ some i) ∧
        ∀ t, s.touches t = some i → (t = .worker i ∧ (s.infos i).phase = .exiting) ∨
          ∃ k, t = .adder k ∧ ((∃ task, s.adder k = .called i task) ∨ s.adder k = .added i)) ∧
    (s.destroyer = .done → ∀ i ∈ order, (s.infos i).freed = true) := by
  have hreaps := EvThreadPool.Reaps.of_reachable hnodup hs
  refine ⟨fun i hfreed => ?_, fun hdone i hi => ?_⟩
  · have hmutex := (hreaps.agrees i).freed_mutex hfreed
    have hphase : (s.infos i).phase = .exiting ∨ (s.infos i).phase = .exited := by
      have hgone := (hreaps.agrees i).freed_gone hfreed
      revert hgone
      cases (s.infos i).phase <;> simp [TaskPhase.isGone]
    have hinside : ∀ t, s.inside t ≠ some i := fun t ht => by
      have hheld := EvThreadPool.Held.of_reachable hs t i ht
      rw [show s.mutex i = none from hmutex] at hheld
      cases hheld
    refine ⟨hphase, hmutex, hinside, fun t ht => ?_⟩
    cases t with
    | worker j =>
        obtain ⟨rfl, hexited⟩ := EvThreadPool.touches_worker ht
        exact Or.inl ⟨rfl, hphase.resolve_right hexited⟩
    | adder k =>
        refine Or.inr ⟨k, rfl, ?_⟩
        rcases AddPhase.touches_cases ht with hcalled | ⟨task, hlocked⟩ | hadded
        · exact Or.inl hcalled
        · have hout := hinside (.adder k)
          rw [EvThreadPool.inside, hlocked] at hout
          exact absurd rfl hout
        · exact Or.inr hadded
    | destroyer =>
        have hnot : s.destroyer.hasFreed order i = false := DestroyPhase.touches_unfreed ht
        rw [← (hreaps.agrees i).freed_eq, hfreed] at hnot
        cases hnot
  · rw [(hreaps.agrees i).freed_eq, hdone]
    simp [DestroyPhase.hasFreed, DestroyPhase.inFirst, DestroyPhase.left, hi]

end Freed

/-- The pool is destroyed while its only worker is in front of its last signal, and so is the thread
    that added its task. -/
theorem threadPool_freed_exiting : ∃ s : EvThreadPool Unit Unit Nat,
    Reachable (threadPool [()]) s ∧ s.destroyer = .done ∧ (s.infos ()).freed = true ∧
    s.touches (.worker ()) = some () ∧ s.touches (.adder ()) = some () ∧
    (s.infos ()).mutex = none := by
  have hs := Reachable.init.run (show (threadPool [()]).run (threadPool [()]).init
    ([.add () () 1, .adder (), .adder (), .worker (), .worker (), .worker (), .worker (), .worker (),
      .worker (), .destroyer, .destroyer, .destroyer, .destroyer, .destroyer, .worker (), .worker (),
      .destroyer, .destroyer, .destroyer] : List (PoolAction Unit Unit Nat)) = some _ from rfl)
  obtain ⟨hfreed, hdone⟩ := threadPool_freed (List.nodup_singleton ()) hs
  have hfree := hdone rfl () (List.mem_singleton_self ())
  exact ⟨_, hs, rfl, hfree, rfl, rfl, (hfreed () hfree).2.1⟩

end Ryze
