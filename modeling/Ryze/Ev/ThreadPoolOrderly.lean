import Mathlib.Data.Fintype.Defs
import Ryze.Ev.ThreadPoolDestroy

set_option autoImplicit false

/-! # Orderly runs of the pool

Waits end for a cause, nobody adds to a pool that is being destroyed, and the destroyer's second
loop, which looks at a thread again and again until it has left, does so only when this helps, that
is when the thread has left or when the signal wakes it. -/

namespace Ryze

open Mutexes Transition

def AddPhase.isOut {ι τ : Type} : AddPhase ι τ → Bool
  | .out => true
  | _ => false

def TaskPhase.isBlocked {τ : Type} : TaskPhase τ → Bool
  | .blocked => true
  | _ => false

section Orderly

variable {ι κ τ : Type} [DecidableEq ι] [DecidableEq κ]

/-- Another look at this thread frees it or wakes it. -/
def EvThreadInfo.isUseful (info : EvThreadInfo ι κ τ) : Bool :=
  info.phase.isBlocked || info.status == 2

def Orderly (s : EvThreadPool ι κ τ) : PoolAction ι κ τ → Prop
  | .worker i => WokenForCause s (.worker i)
  | .add _ _ _ => s.destroyer = .out
  | .destroyer =>
    match s.destroyer with
    | .out => ∀ k, (s.adder k).isOut = true
    | .reap (i :: _) => (s.infos i).isUseful = true
    | _ => True
  | _ => True

instance [Fintype κ] (s : EvThreadPool ι κ τ) : (a : PoolAction ι κ τ) → Decidable (Orderly s a)
  | .worker i => inferInstanceAs (Decidable (WokenForCause s (.worker i)))
  | .wake _ => isTrue trivial
  | .add _ _ _ => inferInstanceAs (Decidable (s.destroyer = .out))
  | .adder _ => isTrue trivial
  | .destroyer =>
    match h : s.destroyer with
    | .out => decidable_of_iff (∀ k, (s.adder k).isOut = true) (by simp only [Orderly, h])
    | .reap (i :: _) => decidable_of_iff ((s.infos i).isUseful = true) (by simp only [Orderly, h])
    | .reap [] => isTrue (by simp only [Orderly, h])
    | .sweep _ => isTrue (by simp only [Orderly, h])
    | .sweeping _ _ => isTrue (by simp only [Orderly, h])
    | .swept _ _ => isTrue (by simp only [Orderly, h])
    | .reaping _ _ => isTrue (by simp only [Orderly, h])
    | .reaped _ _ => isTrue (by simp only [Orderly, h])
    | .done => isTrue (by simp only [Orderly, h])

def orderlyPool [Fintype κ] (order : List ι) : System (EvThreadPool ι κ τ) (PoolAction ι κ τ) :=
  (threadPool order).restrict Orderly

/-! ## Who holds a mutex -/

/-- Who holds a mutex is in its section. -/
def EvThreadPool.Exact (s : EvThreadPool ι κ τ) : Prop := Mutexes.Exact s.mutex s.inside

namespace EvThreadPool

variable {order : List ι} {s s' : EvThreadPool ι κ τ}

omit [DecidableEq ι] [DecidableEq κ] in
/-- A step outside of all sections. -/
theorem Exact.keep (h : s.Exact) (hmutex : s'.mutex = s.mutex) (hinside : s'.inside = s.inside) :
    s'.Exact := by
  unfold EvThreadPool.Exact
  rw [hmutex, hinside]
  exact h

omit [DecidableEq κ] in
theorem mutex_set_same {i : ι} {x : EvThreadInfo ι κ τ} (h : x.mutex = (s.infos i).mutex) :
    (s.set i x).mutex = s.mutex := by
  rw [mutex_set, h]
  exact Function.update_eq_self i s.mutex

/-- A signal is one. -/
theorem Exact.signal (h : s.Exact) (i : ι) : (s.set i (s.infos i).signal).Exact :=
  h.keep (mutex_set_same (s.infos i).signal_mutex)
    (inside_set_same _ _ _ (s.infos i).signal_isInside)

theorem Exact.locked (h : s.Exact) {t : PoolThread ι κ} {i : ι} {x : EvThreadInfo ι κ τ}
    (hout : s.inside t = none) (hx : (s.infos i).lock t = some x)
    (hinfos : s'.infos = (s.set i x).infos)
    (hinside : s'.inside = Function.update (s.set i x).inside t (some i)) : s'.Exact := by
  obtain ⟨_, heq⟩ := EvThreadInfo.lock_eq_some hx
  unfold EvThreadPool.Exact
  rw [mutex_congr hinfos, hinside, mutex_set, inside_set_same s i x (by rw [heq]), heq]
  exact Mutexes.Exact.lock h hout i

theorem Exact.unlocked (h : s.Exact) {t : PoolThread ι κ} {i : ι} {x : EvThreadInfo ι κ τ}
    (ht : s.inside t = some i) (hmutex : x.mutex = none) (hphase : x.phase = (s.infos i).phase)
    (hinfos : s'.infos = (s.set i x).infos)
    (hinside : s'.inside = Function.update (s.set i x).inside t none) : s'.Exact := by
  unfold EvThreadPool.Exact
  rw [mutex_congr hinfos, hinside, mutex_set, hmutex, inside_set_same s i x (by rw [hphase])]
  exact Mutexes.Exact.unlock h ht

/-- A thread that was outside of all sections moves on there. -/
theorem update_inside {t : PoolThread ι κ} (hout : s.inside t = none) :
    Function.update s.inside t none = s.inside := by
  rw [← hout]
  exact Function.update_eq_self t s.inside

theorem Exact.adder (h : s.Exact) {k : κ} (hstep : s.adderStep k = some s') : s'.Exact := by
  cases Adds.of_step hstep with
  | lock hphase hx =>
      have hout : s.inside (.adder k) = none := by
        simp [EvThreadPool.inside, hphase, AddPhase.inside]
      exact h.locked hout hx rfl (inside_moveAdder ..)
  | @append i task hphase =>
      have hin : s.inside (.adder k) = some i := by
        simp [EvThreadPool.inside, hphase, AddPhase.inside]
      refine h.unlocked hin ?_ ?_ rfl (inside_moveAdder ..) <;> rfl
  | @signal i hphase =>
      have hout : (s.set i (s.infos i).signal).inside (.adder k) = none := by
        simp [EvThreadPool.inside, EvThreadPool.set, hphase, AddPhase.inside]
      refine (h.signal i).keep rfl ?_
      rw [inside_moveAdder]
      exact update_inside hout

theorem Exact.destroyer (h : s.Exact) (hstep : s.destroyerStep order = some s') : s'.Exact := by
  have hinside : ∀ {r : Option ι}, s.destroyer.inside = r → s.inside .destroyer = r := id
  have hmove : ∀ {p : DestroyPhase ι}, p.inside = none → s.destroyer.inside = none →
      (s.moveDestroyer p).Exact := fun hp hout => h.keep rfl (by
    rw [inside_moveDestroyer, hp]
    exact update_inside hout)
  have hsignal : ∀ {i : ι} {p : DestroyPhase ι}, p.inside = none → s.destroyer.inside = none →
      ((s.set i (s.infos i).signal).moveDestroyer p).Exact := fun {i p} hp hout =>
    (h.signal i).keep rfl (by
      rw [inside_moveDestroyer, hp]
      exact update_inside hout)
  cases Destroys.of_step hstep with
  | start hphase | turn hphase | finish hphase => exact hmove rfl (by rw [hphase]; rfl)
  | lock hphase hx | relock hphase hx =>
      exact h.locked (hinside (by rw [hphase]; rfl)) hx rfl (inside_moveDestroyer ..)
  | drop hphase | free hphase | unlock hphase =>
      refine h.unlocked (hinside (by rw [hphase]; rfl)) ?_ ?_ rfl (inside_moveDestroyer ..) <;> rfl
  | signal hphase | resignal hphase => exact hsignal rfl (by rw [hphase]; rfl)

theorem Exact.worker (h : s.Exact) (hheld : s.Held) {i : ι} {x : EvThreadInfo ι κ τ}
    (hstep : (s.infos i).workerStep i = some x) (hx : x.Sound i) : (s.set i x).Exact := by
  unfold EvThreadPool.Exact
  rw [mutex_set, inside_set]
  rcases EvThreadInfo.workerStep_mutex hstep with ⟨hfree, hmutex, hin⟩ | ⟨hin, hmutex, hout⟩ |
    ⟨hmutex, hin⟩
  · rw [hmutex, hin, if_pos rfl]
    have hout : s.inside (.worker i) = none := by
      cases hinside : s.inside (.worker i) with
      | none => rfl
      | some j =>
          have hj : i = j := by
            simp only [EvThreadPool.inside] at hinside
            split at hinside
            · exact Option.some.inj hinside
            · cases hinside
          subst hj
          have hholds := hheld _ _ hinside
          rw [show s.mutex i = none from hfree] at hholds
          cases hholds
    exact Mutexes.Exact.lock h hout i
  · rw [hmutex, hout, if_neg Bool.false_ne_true]
    refine Mutexes.Exact.unlock h ?_
    simp [EvThreadPool.inside, hin]
  · rw [hmutex, show Function.update s.mutex i (s.infos i).mutex = s.mutex from
      Function.update_eq_self i s.mutex]
    rcases hin with hin | hin
    · rw [hin, show Function.update s.inside (.worker i)
        (if (s.infos i).phase.isInside then some i else none) = s.inside from
        Function.update_eq_self (PoolThread.worker i) s.inside]
      exact h
    · rw [hin, if_neg Bool.false_ne_true]
      refine Mutexes.Exact.leave h fun j hj => ?_
      have hinside := h j _ hj
      simp only [EvThreadPool.inside] at hinside
      split at hinside
      · cases hinside
        have hsound := hx.mutex_inside (hmutex.trans hj)
        rw [hin] at hsound
        cases hsound
      · cases hinside

end EvThreadPool

/-! ## What orderly runs keep -/

omit [DecidableEq ι] [DecidableEq κ] in
theorem Orderly.wokenForCause {s : EvThreadPool ι κ τ} {a : PoolAction ι κ τ} (h : Orderly s a) :
    WokenForCause s a := by
  cases a with
  | worker i => exact h
  | wake _ => trivial
  | add _ _ _ => trivial
  | adder _ => trivial
  | destroyer => trivial

/-- The list of a thread that is to exit is empty. -/
def EvThreadInfo.IsDrained (info : EvThreadInfo ι κ τ) : Prop := info.status ≠ 0 → info.tasks = []

omit [DecidableEq ι] [DecidableEq κ] in
theorem EvThreadInfo.IsDrained.keep {info x : EvThreadInfo ι κ τ} (h : info.IsDrained)
    (hstatus : x.status = info.status) (htasks : x.tasks = info.tasks) : x.IsDrained := by
  unfold EvThreadInfo.IsDrained
  rw [hstatus, htasks]
  exact h

omit [DecidableEq ι] [DecidableEq κ] in
theorem EvThreadInfo.IsDrained.worker {info x : EvThreadInfo ι κ τ} {i : ι} (h : info.IsDrained)
    (hstep : info.workerStep i = some x) : x.IsDrained := by
  unfold EvThreadInfo.workerStep at hstep
  split at hstep
  · obtain ⟨y, hy, rfl⟩ := Option.map_eq_some_iff.1 hstep
    obtain ⟨_, rfl⟩ := EvThreadInfo.lock_eq_some hy
    exact h
  · split at hstep
    · cases hstep
      exact h
    · cases hstep
      exact h
  · cases hstep
  · obtain ⟨y, hy, rfl⟩ := Option.map_eq_some_iff.1 hstep
    obtain ⟨_, rfl⟩ := EvThreadInfo.lock_eq_some hy
    exact h
  · split at hstep
    · next htasks =>
        split at hstep
        · cases hstep
          exact h
        · cases hstep
          exact fun _ => htasks
    · next htasks =>
        cases hstep
        intro hstatus
        have hnil := h hstatus
        rw [htasks] at hnil
        cases hnil
  · cases hstep
    exact h
  · cases hstep
    exact h
  · cases hstep

omit [DecidableEq ι] [DecidableEq κ] in
theorem EvThreadInfo.IsDrained.signal {info : EvThreadInfo ι κ τ} (h : info.IsDrained) :
    info.signal.IsDrained := by
  rcases info.signal_cases with ⟨_, heq⟩ | ⟨_, heq⟩
  · rw [heq]
    exact h
  · rwa [heq]

/-- What holds in every state of an orderly run. -/
structure EvThreadPool.Calm (order : List ι) (s : EvThreadPool ι κ τ) : Prop where
  held : s.Held
  holder_inside : s.Exact
  reaps : s.Reaps order
  sound : ∀ i, (s.infos i).Sound i
  drained : ∀ i, (s.infos i).IsDrained
  adders_out : s.destroyer ≠ .out → ∀ k, (s.adder k).isOut = true

namespace EvThreadPool

variable {order : List ι} {s s' : EvThreadPool ι κ τ}

theorem sound_step (hheld : s.Held) (hsound : ∀ i, (s.infos i).Sound i) {a : PoolAction ι κ τ}
    (hcause : WokenForCause s a) (hstep : (threadPool order).step s a = some s') (i : ι) :
    (s'.infos i).Sound i := by
  rcases threadPool_stepOn hheld hstep with heq | ⟨k, x, heq, hx⟩
  · rw [heq]
    exact hsound i
  · rw [heq]
    by_cases hi : i = k
    · subst hi
      rw [Function.update_self]
      rcases hx with ⟨rfl, hworker⟩ | htouched
      · exact (hsound i).worker hcause hworker
      · exact (hsound i).touched htouched
    · rw [Function.update_of_ne hi]
      exact hsound i

omit [DecidableEq κ] in
theorem drained_set (h : ∀ i, (s.infos i).IsDrained) {i : ι} {x : EvThreadInfo ι κ τ}
    (hinfos : s'.infos = (s.set i x).infos) (hx : x.IsDrained) (j : ι) :
    (s'.infos j).IsDrained := by
  rw [hinfos, EvThreadPool.set]
  by_cases hj : j = i
  · subst hj
    simp only [Function.update_self]
    exact hx
  · simp only [Function.update_of_ne hj]
    exact h j

/-- Nobody adds to a thread that is to exit, as the destroyer has not begun. -/
theorem drained_adder (h : ∀ i, (s.infos i).IsDrained) (hreaps : s.Reaps order)
    (hout : s.destroyer ≠ .out → ∀ k, (s.adder k).isOut = true) {k : κ}
    (hstep : s.adderStep k = some s') (i : ι) : (s'.infos i).IsDrained := by
  cases Adds.of_step hstep with
  | lock _ hx =>
      obtain ⟨_, rfl⟩ := EvThreadInfo.lock_eq_some hx
      refine drained_set h rfl ?_ i
      exact (h _).keep rfl rfl
  | @append j task hphase =>
      have hdestroyer : s.destroyer = .out := by
        by_contra hne
        have hk := hout hne k
        rw [hphase] at hk
        cases hk
      refine drained_set h rfl (fun hstatus => ?_) i
      have hagrees := hreaps.agrees j
      have hzero := hagrees.status_eq
      have hgone := hagrees.gone_swept
      rw [hdestroyer] at hzero hgone
      cases hg : (s.infos j).phase.isGone with
      | false =>
          rw [hg] at hzero
          exact absurd hzero hstatus
      | true => cases hgone hg
  | signal => exact drained_set h rfl (h _).signal i

omit [DecidableEq κ] in
theorem drained_destroyer (h : ∀ i, (s.infos i).IsDrained)
    (hstep : s.destroyerStep order = some s') (i : ι) : (s'.infos i).IsDrained := by
  cases Destroys.of_step hstep with
  | start | turn | finish => exact h i
  | lock _ hx | relock _ hx =>
      obtain ⟨_, rfl⟩ := EvThreadInfo.lock_eq_some hx
      refine drained_set h rfl ?_ i
      exact (h _).keep rfl rfl
  | drop => exact drained_set h rfl (fun _ => rfl) i
  | free | unlock =>
      refine drained_set h rfl ?_ i
      exact (h _).keep rfl rfl
  | signal | resignal => exact drained_set h rfl (h _).signal i

omit [DecidableEq κ] in
theorem destroyerStep_adder (hstep : s.destroyerStep order = some s') : s'.adder = s.adder := by
  cases Destroys.of_step hstep <;> rfl

theorem adderStep_spec {k : κ} (hstep : s.adderStep k = some s') :
    (s.adder k).isOut = false ∧ s'.destroyer = s.destroyer := by
  cases Adds.of_step hstep with
  | lock hphase | append hphase | signal hphase => exact ⟨by rw [hphase]; rfl, rfl⟩

theorem Calm.step [Fintype κ] (hnodup : order.Nodup) (h : s.Calm order) {a : PoolAction ι κ τ}
    (hstep : (orderlyPool order).step s a = some s') : s'.Calm order := by
  obtain ⟨horderly, hstep⟩ := System.restrict_step.1 hstep
  have hheld := h.held.step hstep
  have hreaps := h.reaps.step hnodup hstep
  have hsound := sound_step h.held h.sound horderly.wokenForCause hstep
  cases a with
  | worker i =>
      obtain ⟨x, hx, rfl⟩ := Option.map_eq_some_iff.1 hstep
      have hxsound := hsound i
      simp only [EvThreadPool.set, Function.update_self] at hxsound
      exact ⟨hheld, h.holder_inside.worker h.held hx hxsound, hreaps, hsound,
        drained_set h.drained rfl ((h.drained i).worker hx), h.adders_out⟩
  | wake i =>
      unfold threadPool at hstep
      simp only at hstep
      split at hstep
      · next hphase =>
          cases hstep
          rw [← EvThreadInfo.signal_blocked hphase] at hheld hreaps hsound ⊢
          exact ⟨hheld, h.holder_inside.signal i, hreaps, hsound,
            drained_set h.drained rfl (h.drained i).signal, h.adders_out⟩
      · cases hstep
  | add k i task =>
      have hdestroyer : s.destroyer = .out := horderly
      unfold threadPool at hstep
      simp only at hstep
      split at hstep
      · next hphase =>
          cases hstep
          have hinside : (s.moveAdder k (.called i task)).inside = s.inside := by
            rw [inside_moveAdder]
            exact update_inside (by simp [EvThreadPool.inside, hphase, AddPhase.inside])
          exact ⟨hheld, h.holder_inside.keep rfl hinside, hreaps, hsound, h.drained,
            fun hne => absurd hdestroyer hne⟩
      · cases hstep
  | adder k =>
      obtain ⟨hk, hdestroyer⟩ := adderStep_spec hstep
      refine ⟨hheld, h.holder_inside.adder hstep, hreaps, hsound,
        drained_adder h.drained h.reaps h.adders_out hstep, fun hne => ?_⟩
      rw [hdestroyer] at hne
      have hout := h.adders_out hne k
      rw [hk] at hout
      cases hout
  | destroyer =>
      refine ⟨hheld, h.holder_inside.destroyer hstep, hreaps, hsound,
        drained_destroyer h.drained hstep, fun _ => ?_⟩
      rw [destroyerStep_adder hstep]
      by_cases hout : s.destroyer = .out
      · simp only [Orderly, hout] at horderly
        exact horderly
      · exact h.adders_out hout

theorem Calm.of_reachable [Fintype κ] (hnodup : order.Nodup)
    (hs : Reachable (orderlyPool order) s) : s.Calm order := by
  refine hs.invariant (Calm order) ?_ fun _ _ _ h hstep => h.step hnodup hstep
  refine ⟨Held.init order, fun i t hi => (nomatch hi), Reaps.init order, fun i => ?_,
    fun i hstatus => absurd rfl hstatus, fun hne => absurd rfl hne⟩
  exact ⟨fun hm => (nomatch hm), fun hp => nomatch hp⟩

end EvThreadPool

end Orderly

end Ryze
