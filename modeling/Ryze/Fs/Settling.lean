import Ryze.Ev.LoopProgress
import Ryze.Fs.Promises

set_option autoImplicit false

/-! # Every promise is settled

With the work functions and `EIO_REQ_FREE` in it the loop comes to rest as it does without them. At
rest every JS call has its promise settled with what it comes to, and nothing is left in the heap. -/

namespace Ryze

open CLib Ownership Handoff Transition

section Settling

variable {ι ν : Type}

/-- A step of the threads, spurious wake-ups apart. -/
def FsAction.own : FsAction ι ν → Bool
  | .js _ _ _ _ => false
  | .work _ _ => true
  | .free => true
  | .pass a => a.own

def FsAction.price : FsAction ι ν → Nat
  | .js _ _ _ _ => 21
  | .work _ _ => 0
  | .free => 0
  | .pass a => a.price

theorem FsAction.price_own {a : FsAction ι ν} (h : a.own = true) : a.price = 0 := by
  cases a with
  | js call old left w => cases h
  | work i result => rfl
  | free => rfl
  | pass a => exact EvLoopAction.price_own h

variable [DecidableEq ι] [Fintype ι] {v8 : V8 ν}

/-- Each step is one of the loop. -/
theorem FsState.step_loop {s s' : FsState ι ν} {a : FsAction ι ν} (h : s.step v8 a = some s') :
    ∃ b, s.loop.step b = some s'.loop ∧ b.price = a.price := by
  cases a with
  | js call old left w =>
      obtain ⟨loop, hloop, rfl⟩ := Option.map_eq_some_iff.1 h
      exact ⟨_, hloop, rfl⟩
  | work i result =>
      simp only [FsState.step] at h
      split at h
      · obtain ⟨loop, hloop, rfl⟩ := Option.map_eq_some_iff.1 h
        exact ⟨_, hloop, rfl⟩
      · cases h
  | free =>
      simp only [FsState.step] at h
      split at h
      · obtain ⟨loop, hloop, rfl⟩ := Option.map_eq_some_iff.1 h
        exact ⟨_, hloop, rfl⟩
      · cases h
  | pass a =>
      simp only [FsState.step] at h
      split at h
      · obtain ⟨loop, hloop, rfl⟩ := Option.map_eq_some_iff.1 h
        exact ⟨a, hloop, rfl⟩
      · cases h

def FsPromises.potential (s : FsPromises ι ν) : Nat := s.fs.loop.potential

theorem fsPromises_potential :
    Potential (fsPromises ι v8) FsPromises.potential FsAction.price where
  lowers := by
    intro s a s' hs h
    obtain ⟨fs, hfs, rfl⟩ := Option.map_eq_some_iff.1 h
    obtain ⟨b, hb, hprice⟩ := FsState.step_loop hfs
    rw [← hprice]
    exact eventLoop_potential.lowers s.fs.loop b fs.loop
      (FsPromises.Inv.of_reachable hs).base.loop hb

/-- A thread that can go on in the loop can go on here. -/
theorem FsState.exists_step (v8 : V8 ν) {s : FsState ι ν} {b : EvLoopAction ι Nat}
    {loop : EvLoopT ι Nat} (hown : b.own = true) (h : s.loop.step b = some loop) :
    ∃ a : FsAction ι ν, a.own = true ∧ (s.step v8 a).isSome = true := by
  by_cases hquiet : b.quiet = true
  · exact ⟨.pass b, hown, by simp only [FsState.step, if_pos hquiet, h, Option.map_some,
      Option.isSome_some]⟩
  · cases b with
    | work b =>
        cases b with
        | call i =>
            cases hi : s.loop.phase i with
            | took r =>
                exact ⟨.work i (.success 0 []), rfl, by
                  simp only [FsState.step, hi, h, Option.map_some, Option.isSome_some]⟩
            | _ => simp [EvLoopT.step, EvLoopT.workStep, hi] at h
        | add r w => cases hown
        | _ => exact absurd rfl hquiet
    | run b =>
        cases b with
        | free =>
            cases hloop : s.loop.loop with
            | calling r =>
                exact ⟨.free, rfl, by
                  simp only [FsState.step, hloop, h, Option.map_some, Option.isSome_some]⟩
            | _ => simp [EvLoopT.step, EvLoopT.runStep, hloop] at h
        | _ => exact absurd rfl hquiet

theorem FsPromises.rest_loop {s : FsPromises ι ν}
    (hrest : AtRest (fsPromises ι v8) FsAction.own s) :
    AtRest (eventLoop ι Nat) EvLoopAction.own s.fs.loop := by
  intro b hown
  by_contra hne
  obtain ⟨loop, hloop⟩ := Option.ne_none_iff_exists'.1 hne
  obtain ⟨a, ha, hstep⟩ := FsState.exists_step v8 hown hloop
  have hnone : (s.fs.step v8 a).map _ = none := hrest a ha
  rw [Option.map_eq_none_iff] at hnone
  rw [hnone] at hstep
  cases hstep

/-- Each of the JS calls has had one system call and its promise settled with what it comes to, and
    nothing is left in the heap. -/
structure FsPromises.Kept (s : FsPromises ι ν) (issued : List (Nat × FsCall ν)) : Prop where
  settled_perm : (s.settled.map Prod.fst).Perm (issued.map Prod.fst)
  ended : ∀ r call, (r, call) ∈ issued → ∃ left result,
    (r, left) ∈ s.lefts ∧ (r, result) ∈ s.results ∧ (r, call.outcome left result) ∈ s.settled
  heap_empty : ∀ a, s.fs.heap.objs a = none

theorem FsPromises.kept_of_rest [Nonempty ι] {s : FsPromises ι ν}
    (hs : Reachable (fsPromises ι v8) s) (hrest : AtRest (fsPromises ι v8) FsAction.own s) :
    s.Kept s.fs.issued := by
  have hinv := FsPromises.Inv.of_reachable hs
  have hdelivered := EvLoopT.delivered_of_rest hinv.base.loop (FsPromises.rest_loop hrest)
  obtain ⟨order, hperm, hevents⟩ := hdelivered.events_eq
  have hcallbacks : callbacks s.fs.loop.events = order := by rw [hevents, callbacks_served]
  have hfrees : frees s.fs.loop.events = order := by
    have heq := callbacks_eq hinv.base.loop
    rw [hdelivered.waiting, hcallbacks] at heq
    exact (heq.trans (List.append_nil _)).symm
  have hsettled : (s.settled.map Prod.fst).Perm s.fs.loop.ledger.submitted := by
    rw [hinv.settled_eq, hcallbacks]
    exact hperm
  refine ⟨?_, fun r call hcall => ?_, fun a => ?_⟩
  · rw [hinv.base.issued_eq]
    exact hsettled
  · have hsubmitted := hinv.base.issued_submitted hcall
    obtain ⟨⟨q, value⟩, hvalue, hq⟩ := List.mem_map.1 (hsettled.mem_iff.2 hsubmitted)
    obtain rfl : q = r := hq
    have hcalled := hinv.settled_called hvalue
    obtain ⟨⟨q', left⟩, hleft, hq'⟩ := List.mem_map.1 (hinv.lefts_eq ▸ hsubmitted)
    obtain ⟨⟨q'', result⟩, hresult, hq''⟩ := List.mem_map.1 (hinv.results_eq ▸ hcalled)
    obtain ⟨rfl, rfl⟩ : q' = q ∧ q'' = q := ⟨hq', hq''⟩
    refine ⟨left, result, hleft, hresult, ?_⟩
    rw [← hinv.ended _ call left result value hcall hleft hresult hvalue]
    exact hvalue
  · -- all requests were freed
    have hactive : s.fs.active = [] := List.eq_nil_iff_forall_not_mem.2 fun r hr => by
      obtain ⟨hsubmitted, hnot⟩ := FsState.mem_active.1 hr
      rw [hfrees] at hnot
      exact hnot (hperm.mem_iff.2 hsubmitted)
    by_contra hne
    have hmem := hinv.live a (Option.ne_none_iff_isSome.1 hne)
    rw [hactive] at hmem
    exact Multiset.notMem_zero a hmem

theorem FsPromises.step_issued {s s' : FsPromises ι ν} {a : FsAction ι ν} (hown : a.own = true)
    (hs : Reachable (fsPromises ι v8) s) (h : s.step v8 a = some s') :
    s'.fs.issued = s.fs.issued := by
  have hbase := (FsPromises.Inv.of_reachable hs).base
  obtain ⟨fs, hfs, rfl⟩ := Option.map_eq_some_iff.1 h
  cases a with
  | js call old left w => cases hown
  | work i result =>
      obtain ⟨r, req, t, _, hworked⟩ := hbase.worked hfs
      exact hworked.issued_eq
  | free =>
      obtain ⟨r, req, hfreed⟩ := hbase.freed hfs
      exact hfreed.issued_eq
  | pass a => exact (hbase.passed hfs).issued_eq

/-- **Settling.** From every state that can be reached, once no more JS calls are made, the threads
    stop after at most `potential` steps, whatever their order and however the system calls end: and
    then each JS call has its promise settled once, with what it comes to, and the heap is empty. -/
theorem fs_promises_settle [Nonempty ι] {s : FsPromises ι ν} (hs : Reachable (fsPromises ι v8) s) :
    Settles (fsPromises ι v8) FsAction.own s.potential (fun s' => s'.Kept s.fs.issued) s := by
  refine fsPromises_potential.settles (fun a => FsAction.price_own) hs fun as s' hrun hrest => ?_
  have hsame : Reachable (fsPromises ι v8) s' ∧ s'.fs.issued = s.fs.issued :=
    hrun.keeps (P := fun t => Reachable (fsPromises ι v8) t ∧ t.fs.issued = s.fs.issued)
      (fun t a t' hown ht hstep =>
        ⟨ht.1.step a hstep, (FsPromises.step_issued hown ht.1 hstep).trans ht.2⟩) ⟨hs, rfl⟩
  rw [← hsame.2]
  exact FsPromises.kept_of_rest hsame.1 hrest

end Settling

/-- From where `fs.close(3)` has added its request. -/
theorem fs_promises_settle_close : ∃ s : FsPromises (Fin 1) JsValue,
    Reachable (fsPromises (Fin 1) JsValue.v8) s ∧
    s.fs.issued = [(0, .close [.integer 3])] ∧ s.settled = [] ∧
    ∃ as s', OwnRun (fsPromises (Fin 1) JsValue.v8) FsAction.own s as s' ∧
      s'.Kept [(0, .close [.integer 3])] := by
  have hs := Reachable.init.run (show (fsPromises (Fin 1) JsValue.v8).run
    (fsPromises (Fin 1) JsValue.v8).init [.pass (.work (.enter 0 none)),
      .js (.close [.integer 3]) .zero (fun _ => 0) (some 0)] = some _ from rfl)
  have hsettles := fs_promises_settle hs
  obtain ⟨as, s', hrun, hrest⟩ := hsettles.rests
  exact ⟨_, hs, rfl, rfl, as, s', hrun, hsettles.goal_of_rest as s' hrun hrest⟩

end Ryze
