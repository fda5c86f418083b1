import Ryze.Ev.EventLoop
import Ryze.Ev.WorkQueue
import Ryze.Lib.Progress

set_option autoImplicit false

/-! # Nothing is left lying

What the workers and the loop thread do by themselves comes to an end, and at the end nothing is left
to do. A worker's steps and those of the loop thread are paid for by the requests that are added, so
neither loop is ever busy without cause; and a state in which no thread can go on, but for a new
request or a spurious wake-up, is one in which every request has gone all the way. -/

namespace Ryze

open Handoff Population Transition

/-! ## Workers -/

/-- The step is neither a new request nor a spurious wake-up. -/
def EvAction.own {ι ρ : Type} : EvAction ι ρ → Bool
  | .add _ _ => false
  | .wake _ => false
  | _ => true

/-- How far a worker is from its next wait: `idle` steps in front of the first section, `busy` in
    front of the second. -/
def EvPhase.weight {ρ : Type} (idle busy : Nat) : EvPhase ρ → Nat
  | .top => idle
  | .blocked => 0
  | .woken => idle
  | .took _ => busy + 2
  | .working _ => busy + 1
  | .worked _ => busy

section Signals

variable {ι ρ : Type} [DecidableEq ι] [Fintype ι] [DecidableEq ρ]

/-- A signal makes at most one worker go to the first section. -/
theorem total_condSignal {phase phase' : ι → EvPhase ρ} {w : Option ι} (idle busy : Nat)
    (h : condSignal phase w = some phase') :
    total phase' (EvPhase.weight idle busy) ≤ total phase (EvPhase.weight idle busy) + idle := by
  rcases signal_cases h with ⟨i, hi, rfl⟩ | ⟨_, rfl⟩
  · have htotal := total_update hi .woken (EvPhase.weight idle busy)
    simp only [EvPhase.weight] at htotal
    omega
  · omega

/-- A signal can always be sent, to whoever is there. -/
theorem exists_condSignal (phase : ι → EvPhase ρ) :
    ∃ w phase', condSignal phase w = some phase' := by
  by_cases hblocked : ∃ i, phase i = .blocked
  · obtain ⟨i, hi⟩ := hblocked
    exact ⟨some i, _, if_pos hi⟩
  · exact ⟨none, _, if_neg hblocked⟩

/-- Where no worker is blocked a signal does nothing. -/
theorem condSignal_none {phase phase' : ι → EvPhase ρ} {w : Option ι}
    (h : condSignal phase w = some phase')
    (hnone : howMany phase EvPhase.isBlocked = 0) : phase' = phase := by
  rcases howMany_condSignal h with ⟨hfewer, _⟩ | ⟨_, heq⟩
  · omega
  · exact heq

end Signals

/-! ## The work queue -/

section WorkQueue

variable {ι ρ : Type} [DecidableEq ι] [Fintype ι] [DecidableEq ρ]

def EvLoop.potential (s : EvLoop ι ρ) : Nat :=
  total s.phase (EvPhase.weight 1 2) + 5 * s.list0.length

/-- A new request sends one worker round once more; a worker that wakes by itself tests and
    waits. -/
def EvAction.queuePrice : EvAction ι ρ → Nat
  | .add _ _ => 7
  | .wake _ => 2
  | _ => 0

omit [DecidableEq ι] [Fintype ι] [DecidableEq ρ] in
theorem EvAction.queuePrice_own {a : EvAction ι ρ} (h : a.own = true) : a.queuePrice = 0 := by
  cases a with
  | add r w => cases h
  | wake i => cases h
  | _ => rfl

theorem EvLoop.takeOrWait_lowers {s s' : EvLoop ι ρ} {i : ι} {w : Option ι}
    (hi : (s.phase i).weight 1 2 = 1) (h : s.takeOrWait i w = some s') :
    s'.potential + 1 ≤ s.potential := by
  rcases EvLoop.takeOrWait_cases h with ⟨_, rfl⟩ | ⟨r, rest, phase, hlist, hphase, rfl⟩
  · have htotal := total_update (rfl : s.phase i = _) .blocked (EvPhase.weight 1 2)
    rw [hi] at htotal
    simp only [EvLoop.potential, EvPhase.weight] at htotal ⊢
    omega
  · have htotal := total_update (rfl : s.phase i = _) (.took r) (EvPhase.weight 1 2)
    rw [hi] at htotal
    have hle : total phase (EvPhase.weight 1 2)
        ≤ total (Function.update s.phase i (.took r)) (EvPhase.weight 1 2) + 1 := by
      rcases hphase with ⟨rfl, _⟩ | hsignal
      · omega
      · exact total_condSignal 1 2 hsignal
    simp only [EvLoop.potential, hlist, List.length_cons, EvPhase.weight] at htotal ⊢
    omega

/-- Every step takes a worker nearer to its next wait, or pays for it. -/
theorem workQueue_potential :
    Potential (workQueue ι ρ) EvLoop.potential EvAction.queuePrice where
  lowers := by
    intro s a s' _ h
    rcases EvLoop.step_cases h with ⟨r, w, phase, rfl, _, hphase, rfl⟩ | ⟨i, w, rfl, hi, h⟩ |
      ⟨i, rfl, hi, rfl⟩ | ⟨i, w, rfl, hi, h⟩ | ⟨i, r, rfl, hi, rfl⟩ | ⟨i, r, rfl, hi, rfl⟩ |
      ⟨i, r, rfl, hi, rfl⟩
    · have hle : total phase (EvPhase.weight 1 2) ≤ total s.phase (EvPhase.weight 1 2) + 1 := by
        rcases hphase with ⟨rfl, _⟩ | ⟨_, hsignal⟩
        · omega
        · exact total_condSignal 1 2 hsignal
      simp only [EvLoop.potential, EvAction.queuePrice, List.length_append, List.length_singleton]
      omega
    · exact EvLoop.takeOrWait_lowers (by rw [hi]; rfl) h
    · have htotal := total_update hi .woken (EvPhase.weight 1 2)
      simp only [EvLoop.potential, EvAction.queuePrice, EvPhase.weight] at htotal ⊢
      omega
    · exact EvLoop.takeOrWait_lowers (s := { s with waitThreads := s.waitThreads - 1 })
        (by rw [hi]; rfl) h
    · have htotal := total_update hi (.working r) (EvPhase.weight 1 2)
      simp only [EvLoop.potential, EvAction.queuePrice, EvPhase.weight] at htotal ⊢
      omega
    · have htotal := total_update hi (.worked r) (EvPhase.weight 1 2)
      simp only [EvLoop.potential, EvAction.queuePrice, EvPhase.weight] at htotal ⊢
      omega
    · have htotal := total_update hi .top (EvPhase.weight 1 2)
      simp only [EvLoop.potential, EvAction.queuePrice, EvPhase.weight] at htotal ⊢
      omega

theorem EvLoop.WaitInv.of_reachable {s : EvLoop ι ρ} (hs : Reachable (workQueue ι ρ) s) :
    s.WaitInv :=
  hs.invariant _ EvLoop.WaitInv.init fun _ _ _ hinv hstep => hinv.step hstep

omit [DecidableEq ι] [DecidableEq ρ] in
/-- While all workers are blocked there is no request in `list[0]`. -/
theorem EvLoop.WaitInv.list0_eq_nil [Nonempty ι] {s : EvLoop ι ρ} (h : s.WaitInv)
    (hall : ∀ i, s.phase i = .blocked) : s.list0 = [] := by
  obtain ⟨i⟩ := ‹Nonempty ι›
  have hblocked : 0 < howMany s.phase EvPhase.isBlocked := howMany_pos.2 ⟨i, by rw [hall i]; rfl⟩
  have hwoken : howMany s.phase EvPhase.isWoken = 0 :=
    howMany_eq_zero.2 fun j => by rw [hall j]; rfl
  have hlen := h.length_le hblocked
  exact List.length_eq_zero_iff.1 (by omega)

theorem EvLoop.exists_takeOrWait (s : EvLoop ι ρ) (i : ι) :
    ∃ w, (s.takeOrWait i w).isSome = true := by
  cases hlist : s.list0 with
  | nil => exact ⟨none, by simp only [EvLoop.takeOrWait, hlist, Option.isSome_some]⟩
  | cons r rest =>
      obtain ⟨w, phase, hsignal⟩ := exists_condSignal (Function.update s.phase i (.took r))
      refine ⟨w, ?_⟩
      by_cases hmore : rest ≠ [] ∧ s.waitThreads > 0
      · simp only [EvLoop.takeOrWait, hlist, if_pos hmore, EvLoop.signal, hsignal, Option.map_some,
          Option.isSome_some]
      · simp only [EvLoop.takeOrWait, hlist, if_neg hmore, Option.isSome_some]

/-- Every worker that is not blocked can go on. -/
theorem EvLoop.exists_step {s : EvLoop ι ρ} {i : ι} (hi : s.phase i ≠ .blocked) :
    ∃ a, a.own = true ∧ (s.step a).isSome = true := by
  cases hphase : s.phase i with
  | top =>
      obtain ⟨w, htake⟩ := s.exists_takeOrWait i
      exact ⟨.enter i w, rfl, by simp only [EvLoop.step, if_pos hphase, htake]⟩
  | blocked => exact absurd hphase hi
  | woken =>
      obtain ⟨w, htake⟩ := EvLoop.exists_takeOrWait { s with waitThreads := s.waitThreads - 1 } i
      exact ⟨.resume i w, rfl, by simp only [EvLoop.step, if_pos hphase, htake]⟩
  | took r => exact ⟨.call i, rfl, by simp only [EvLoop.step, hphase, Option.isSome_some]⟩
  | working r => exact ⟨.ret i, rfl, by simp only [EvLoop.step, hphase, Option.isSome_some]⟩
  | worked r => exact ⟨.append i, rfl, by simp only [EvLoop.step, hphase, Option.isSome_some]⟩

theorem EvLoop.blocked_of_rest {s : EvLoop ι ρ} (hrest : AtRest (workQueue ι ρ) EvAction.own s)
    (i : ι) : s.phase i = .blocked := by
  by_contra hne
  obtain ⟨a, hown, hstep⟩ := EvLoop.exists_step hne
  rw [show s.step a = none from hrest a hown] at hstep
  cases hstep

theorem EvLoop.takeOrWait_submitted {s s' : EvLoop ι ρ} {i : ι} {w : Option ι}
    (h : s.takeOrWait i w = some s') : s'.ledger.submitted = s.ledger.submitted := by
  rcases EvLoop.takeOrWait_cases h with ⟨_, rfl⟩ | ⟨r, rest, phase, _, _, rfl⟩
  · rfl
  · rfl

theorem EvLoop.step_submitted {s s' : EvLoop ι ρ} {a : EvAction ι ρ} (hown : a.own = true)
    (h : s.step a = some s') : s'.ledger.submitted = s.ledger.submitted := by
  rcases EvLoop.step_cases h with ⟨r, w, phase, rfl, _, _, rfl⟩ | ⟨i, w, rfl, _, h⟩ |
    ⟨i, rfl, _, rfl⟩ | ⟨i, w, rfl, _, h⟩ | ⟨i, r, rfl, _, rfl⟩ | ⟨i, r, rfl, _, rfl⟩ |
    ⟨i, r, rfl, _, rfl⟩
  · cases hown
  · exact EvLoop.takeOrWait_submitted h
  · rfl
  · exact EvLoop.takeOrWait_submitted (s := { s with waitThreads := s.waitThreads - 1 }) h
  · rfl
  · rfl
  · rfl

/-- At rest all workers wait and every submitted request is in `list[1]`. -/
structure EvLoop.Done (s : EvLoop ι ρ) (submitted : List ρ) : Prop where
  blocked : ∀ i, s.phase i = .blocked
  list0_eq : s.list0 = []
  list1_perm : s.list1.Perm submitted

theorem EvLoop.done_of_rest [Nonempty ι] {s : EvLoop ι ρ} (hs : Reachable (workQueue ι ρ) s)
    (hrest : AtRest (workQueue ι ρ) EvAction.own s) : s.Done s.ledger.submitted := by
  have hblocked := EvLoop.blocked_of_rest hrest
  have hlist := (EvLoop.WaitInv.of_reachable hs).list0_eq_nil hblocked
  refine ⟨hblocked, hlist, ?_⟩
  have hpool : s.pool.Inv := Pool.Inv.of_reachable (workQueue_refines.reachable hs)
  rw [EvLoop.list1_eq hs]
  exact hpool.appended_perm hlist fun i => by simp only [EvLoop.pool, hands, hblocked i]; rfl

/-- **Settling.** Without new requests and spurious wake-ups the workers stop after at most
    `potential` steps, whatever their order, and then every request that was submitted has been
    worked on and is in `list[1]`, once. -/
theorem workQueue_settles [Nonempty ι] {s : EvLoop ι ρ} (hs : Reachable (workQueue ι ρ) s) :
    Settles (workQueue ι ρ) EvAction.own s.potential (fun s' => s'.Done s.ledger.submitted) s := by
  refine workQueue_potential.settles (fun a => EvAction.queuePrice_own) hs
    fun as s' hrun hrest => ?_
  have hsame : s'.ledger.submitted = s.ledger.submitted :=
    hrun.keeps (P := fun t => t.ledger.submitted = s.ledger.submitted)
      (fun t a t' hown ht hstep => (EvLoop.step_submitted hown hstep).trans ht) rfl
  rw [← hsame]
  exact EvLoop.done_of_rest (hrun.reachable hs) hrest

/-- Two requests, one worker. -/
theorem workQueue_settles_two : ∃ s, Reachable (workQueue (Fin 1) Nat) s ∧
    s.ledger.submitted = [7, 8] ∧ s.list1 = [] ∧
    ∃ as s', OwnRun (workQueue (Fin 1) Nat) EvAction.own s as s' ∧ s'.Done [7, 8] := by
  have hs := Reachable.init.run (show (workQueue (Fin 1) Nat).run (workQueue (Fin 1) Nat).init
    [.add 7 none, .add 8 none, .enter 0 none] = some _ from rfl)
  have hsettles := workQueue_settles hs
  obtain ⟨as, s', hrun, hrest⟩ := hsettles.rests
  exact ⟨_, hs, rfl, rfl, as, s', hrun, hsettles.goal_of_rest as s' hrun hrest⟩

end WorkQueue

end Ryze
