import Ryze.Fs.Outcome

set_option autoImplicit false

/-! # Promises

The system of the bindings, the loop and the work functions with its history: what `malloc` left in
the blocks of a request, how its system call ended, and what its promise was settled with. A promise
is called by the address of its request. Whatever the other calls do meanwhile, a promise is settled
as if its call were the only one, and the blocks that are live are those of the requests on their
way. -/

namespace Ryze

open CLib Ownership Handoff Transition

/-! ## The system with its history -/

structure FsPromises (ι ν : Type) where
  fs : FsState ι ν
  lefts : List (Nat × (Nat → UInt8))
  results : List (Nat × SysResult)
  /-- what the callbacks settled the promises with -/
  settled : List (Nat × CRun Settled)

namespace FsState

variable {ι ν : Type}

/-- What `malloc` leaves to a JS call. -/
def leftBy (v8 : V8 ν) (s : FsState ι ν) : FsAction ι ν → List (Nat × (Nat → UInt8))
  | .js call old left _ => [((call.issue v8 old left s.heap).r, left)]
  | _ => []

/-- How the system call of a work function ends. -/
def resultBy (s : FsState ι ν) : FsAction ι ν → List (Nat × SysResult)
  | .work i result =>
    match s.loop.phase i with
    | .took r => [(r, result)]
    | _ => []
  | _ => []

/-- What `req->callback(req)` settles the promise with. -/
def settledBy (s : FsState ι ν) : FsAction ι ν → List (Nat × CRun Settled)
  | .pass (.run .callback) =>
    match s.loop.head1 with
    | r :: _ =>
      match s.heap.objs r with
      | some (.request req) => [(r, req.call s.heap)]
      | _ => []
    | [] => []
  | _ => []

end FsState

section System

variable {ι ν : Type} [DecidableEq ι] [Fintype ι]

def FsPromises.step (v8 : V8 ν) (s : FsPromises ι ν) (a : FsAction ι ν) :
    Option (FsPromises ι ν) :=
  (s.fs.step v8 a).map fun fs => {
    fs := fs
    lefts := s.lefts ++ s.fs.leftBy v8 a
    results := s.results ++ s.fs.resultBy a
    settled := s.settled ++ s.fs.settledBy a }

def fsPromises (ι : Type) {ν : Type} [DecidableEq ι] [Fintype ι] (v8 : V8 ν) :
    System (FsPromises ι ν) (FsAction ι ν) where
  init := ⟨(fsLoop ι v8).init, [], [], []⟩
  step := FsPromises.step v8

variable {v8 : V8 ν}

/-- The history changes nothing. -/
theorem fsPromises_refines : Refines (fsPromises ι v8) (fsLoop ι v8) FsPromises.fs where
  init := rfl
  step := by
    intro s a s' _ h
    obtain ⟨fs, hfs, rfl⟩ := Option.map_eq_some_iff.1 h
    exact Or.inr ⟨a, hfs⟩

end System

/-! ## What a step does to the requests -/

/-- Only a callback is one. -/
theorem EvLoopT.callbacks_runStep {ι ρ : Type} {s s' : EvLoopT ι ρ} {a : RunAction}
    (ha : a ≠ .callback) (h : s.runStep a = some s') :
    callbacks s'.events = callbacks s.events := by
  rcases EvLoopT.runStep_cases h with ⟨_, rfl⟩ | ⟨_, rfl⟩ | ⟨_, rfl⟩ | ⟨r, rest, hloop, _, rfl⟩ |
    ⟨r, _, rfl⟩ | ⟨_, _, rfl⟩
  · rfl
  · rfl
  · rfl
  · cases a with
    | callback => exact absurd rfl ha
    | _ => simp_all [EvLoopT.runStep]
  · exact (callbacks_concat _ _).trans (List.append_nil _)
  · rfl

namespace FsState

section Steps

variable {ι ν : Type} [DecidableEq ι] [Fintype ι] {v8 : V8 ν} {s s' : FsState ι ν}

/-- A binding is called. -/
structure Added (v8 : V8 ν) (s s' : FsState ι ν) (call : FsCall ν) (old : EioReq)
    (left : Nat → UInt8) : Prop where
  r_fresh : (call.issue v8 old left s.heap).r ∉ s.loop.ledger.submitted
  submitted_eq : s'.loop.ledger.submitted
    = s.loop.ledger.submitted ++ [(call.issue v8 old left s.heap).r]
  called_eq : s'.loop.ledger.called = s.loop.ledger.called
  events_eq : s'.loop.events = s.loop.events
  heap_eq : s'.heap = (call.issue v8 old left s.heap).heap
  issued_eq : s'.issued = s.issued ++ [((call.issue v8 old left s.heap).r, call)]
  active_eq : s'.active = s.active ++ [(call.issue v8 old left s.heap).r]
  same : ∀ a ∈ ownedBy s.heap s.active, s'.heap.objs a = s.heap.objs a

theorem Inv.added {call : FsCall ν} {old : EioReq} {left : Nat → UInt8} {w : Option ι}
    (h : s.Inv v8) (hstep : s.step v8 (.js call old left w) = some s') :
    Added v8 s s' call old left := by
  simp only [FsState.step] at hstep
  obtain ⟨loop, hloop, rfl⟩ := Option.map_eq_some_iff.1 hstep
  obtain ⟨hfresh, hsubmitted, hcalled, hfrees⟩ := EvLoopT.step_add hloop
  have hleaves := FsCall.issue_leaves v8 old left s.heap call
  obtain ⟨-, -, hsame⟩ := hleaves.transfer _ h.sound (by rw [zero_add]; exact h.owns)
  have hrfree : (call.issue v8 old left s.heap).r ∉ frees s.loop.events := fun hmem =>
    hfresh (called_submitted h.loop (callbacks_called h.loop (by
      rw [callbacks_eq h.loop]
      exact List.mem_append_left _ hmem)))
  have hevents : loop.events = s.loop.events :=
    (EvLoopT.notifies_workStep (a := .add (call.issue v8 old left s.heap).r w) hloop).events_eq
  refine ⟨hfresh, hsubmitted, hcalled, hevents, rfl, rfl, ?_, hsame⟩
  rw [FsState.active, hsubmitted, hfrees, List.filter_append, FsState.active]
  congr 1
  simp [hrfree]

/-- Work is called on the request at `r`. -/
structure Worked (s s' : FsState ι ν) (r : Nat) (result : SysResult) (req : EioReq)
    (t : EioState) : Prop where
  mem_active : r ∈ s.active
  r_fresh : r ∉ s.loop.ledger.called
  at_eq : RequestAt s.heap r req
  run : EioState.work result ⟨req, s.heap, []⟩ = .ok t
  submitted_eq : s'.loop.ledger.submitted = s.loop.ledger.submitted
  called_eq : s'.loop.ledger.called = s.loop.ledger.called ++ [r]
  events_eq : s'.loop.events = s.loop.events
  heap_eq : s'.heap = t.heap.modify r fun _ => .request t.req
  issued_eq : s'.issued = s.issued
  active_eq : s'.active = s.active
  at_new : RequestAt s'.heap r t.req
  same : ∀ a ∈ ownedBy s.heap (s.active.erase r), s'.heap.objs a = s.heap.objs a

theorem Inv.worked {i : ι} {result : SysResult} (h : s.Inv v8)
    (hstep : s.step v8 (.work i result) = some s') :
    ∃ r req t, s.loop.phase i = .took r ∧ Worked s s' r result req t := by
  simp only [FsState.step] at hstep
  split at hstep
  · next r hi =>
      obtain ⟨loop, hloop, rfl⟩ := Option.map_eq_some_iff.1 hstep
      obtain ⟨hsubmitted, hcalled, hevents⟩ := EvLoopT.step_call hi hloop
      have hfresh := took_not_called h.loop hi hloop
      have hr : r ∈ s.active := h.waiting_active (took_submitted h.loop hi) hfresh
      obtain ⟨req, hreq⟩ := h.active r hr
      obtain ⟨t, hrun, hworks⟩ := EioState.apply_works result ⟨req, s.heap, []⟩ hreq.2
      obtain ⟨-, howns, hsame⟩ := h.others hr hreq (writeBack_transfer hworks)
      have hnew := RequestAt.writeBack howns (by rw [hworks.work]; exact hreq.2)
      have hon : s.workOn r result = { s with
          heap := t.heap.modify r fun _ => .request t.req
          calls := s.calls ++ t.calls.map (r, ·) } := by
        have hwork : EioState.work result ⟨req, s.heap, []⟩ = .ok t := hrun
        simp only [FsState.workOn, hreq.1, hwork]
      rw [hon]
      exact ⟨r, req, t, hi, hr, hfresh, hreq, hrun, hsubmitted, hcalled, hevents, rfl, rfl,
        active_congr hsubmitted (congrArg frees hevents), hnew, hsame⟩
  · cases hstep

/-- `EIO_REQ_FREE` of the request at `r`. -/
structure Freed (s s' : FsState ι ν) (r : Nat) (req : EioReq) : Prop where
  mem_active : r ∈ s.active
  r_called : r ∈ s.loop.ledger.called
  at_eq : RequestAt s.heap r req
  ledger_eq : s'.loop.ledger = s.loop.ledger
  callbacks_eq : callbacks s'.loop.events = callbacks s.loop.events
  heap_eq : s'.heap = eioReqFree r req s.heap
  issued_eq : s'.issued = s.issued
  active_eq : s'.active = s.active.erase r
  same : ∀ a ∈ ownedBy s.heap (s.active.erase r), s'.heap.objs a = s.heap.objs a

theorem Inv.freed (h : s.Inv v8) (hstep : s.step v8 .free = some s') :
    ∃ r req, Freed s s' r req := by
  simp only [FsState.step] at hstep
  split at hstep
  · next r hcalling =>
      obtain ⟨loop, hloop, rfl⟩ := Option.map_eq_some_iff.1 hstep
      obtain ⟨hledger, hfrees⟩ := EvLoopT.step_free hcalling hloop
      obtain ⟨hcallback, hnotfreed⟩ := calling_not_freed h.loop hcalling
      have hcalled := callbacks_called h.loop hcallback
      have hr : r ∈ s.active := mem_active.2 ⟨called_submitted h.loop hcalled, hnotfreed⟩
      obtain ⟨req, hreq⟩ := h.active r hr
      obtain ⟨-, -, hsame⟩ := h.others hr hreq (eioReqFree_transfer r req s.heap)
      have hfree : s.freeReq r = { s with heap := eioReqFree r req s.heap } := by
        simp only [freeReq, hreq.1]
      rw [hfree]
      refine ⟨r, req, hr, hcalled, hreq, hledger, ?_, rfl, rfl, ?_, hsame⟩
      · rw [EvLoopT.step, EvLoopT.runStep, hcalling] at hloop
        cases hloop
        exact (callbacks_concat _ _).trans (List.append_nil _)
      · rw [h.active_nodup.erase_eq_filter, FsState.active, FsState.active, hledger, hfrees,
          List.filter_filter]
        refine List.filter_congr fun q _ => ?_
        rw [Bool.eq_iff_iff]
        simp [and_comm]
  · cases hstep

/-- No request is handed over twice. -/
theorem Inv.handed_nodup (h : s.Inv v8) :
    (callbacks s.loop.events ++ s.loop.head1).Nodup := by
  have hpool : s.loop.pool.Inv := Pool.Inv.of_reachable (eventLoop_refines.reachable h.loop)
  rw [← (EvLoopT.Delivery.of_reachable h.loop).appended_eq]
  exact hpool.appended_nodup

theorem Inv.head1_not_called_back (h : s.Inv v8) {r : Nat} (hr : r ∈ s.loop.head1) :
    r ∉ callbacks s.loop.events :=
  fun hmem => List.disjoint_of_nodup_append h.handed_nodup hmem hr

/-- A request in `head[1]` is on its way. -/
theorem Inv.head1_active (h : s.Inv v8) {r : Nat} (hr : r ∈ s.loop.head1) : r ∈ s.active := by
  have hpool : s.loop.pool.Inv := Pool.Inv.of_reachable (eventLoop_refines.reachable h.loop)
  have hmem : r ∈ s.loop.ledger.appended := by
    rw [(EvLoopT.Delivery.of_reachable h.loop).appended_eq]
    exact List.mem_append_right _ hr
  refine mem_active.2 ⟨called_submitted h.loop (hpool.appended_called hmem), fun hfreed => ?_⟩
  refine h.head1_not_called_back hr ?_
  rw [callbacks_eq h.loop]
  exact List.mem_append_left _ hfreed

/-- Any other step of the workers or of the loop thread. -/
structure Passed (s s' : FsState ι ν) (a : EvLoopAction ι Nat) : Prop where
  submitted_eq : s'.loop.ledger.submitted = s.loop.ledger.submitted
  called_eq : s'.loop.ledger.called = s.loop.ledger.called
  heap_eq : s'.heap = s.heap
  issued_eq : s'.issued = s.issued
  active_eq : s'.active = s.active
  /-- the callback, if it is one, is that of a request on its way -/
  callback : (callbacks s'.loop.events = callbacks s.loop.events ∧ s.settledBy (.pass a) = []) ∨
    ∃ r req, r ∈ s.active ∧ RequestAt s.heap r req ∧ r ∉ callbacks s.loop.events ∧
      callbacks s'.loop.events = callbacks s.loop.events ++ [r] ∧
      s.settledBy (.pass a) = [(r, req.call s.heap)]

theorem Inv.passed {a : EvLoopAction ι Nat} (h : s.Inv v8)
    (hstep : s.step v8 (.pass a) = some s') : Passed s s' a := by
  simp only [FsState.step] at hstep
  split at hstep
  · next hquiet =>
      obtain ⟨loop, hloop, rfl⟩ := Option.map_eq_some_iff.1 hstep
      obtain ⟨hsubmitted, hcalled, hfrees⟩ := EvLoopT.step_quiet hquiet hloop
      refine ⟨hsubmitted, hcalled, rfl, rfl, active_congr hsubmitted hfrees, ?_⟩
      cases a with
      | work a => exact Or.inl ⟨congrArg callbacks (EvLoopT.notifies_workStep hloop).events_eq, rfl⟩
      | run a =>
          replace hloop : s.loop.runStep a = some loop := hloop
          cases a with
          | callback =>
              rw [EvLoopT.runStep] at hloop
              split at hloop
              · next r rest hdraining hhead =>
                  cases hloop
                  have hmem : r ∈ s.loop.head1 := by
                    rw [hhead]
                    exact List.mem_cons_self
                  have hr := h.head1_active hmem
                  obtain ⟨req, hreq⟩ := h.active r hr
                  refine Or.inr ⟨r, req, hr, hreq, h.head1_not_called_back hmem,
                    callbacks_concat _ _, ?_⟩
                  simp only [settledBy, hhead, hreq.1]
              · cases hloop
          | free => cases hquiet
          | epollWait | read | lock | unlock =>
              exact Or.inl ⟨EvLoopT.callbacks_runStep (by simp) hloop, rfl⟩
  · cases hstep

end Steps

end FsState

/-! ## The invariant -/

namespace FsPromises

section Invariant

variable {ι ν : Type} [DecidableEq ι] [Fintype ι] {v8 : V8 ν}

/-- A request that work was not called on is fresh, one that was called is ready to end as its call
    does, and the promises that are settled did. Each live block belongs to a request. -/
structure Inv (v8 : V8 ν) (s : FsPromises ι ν) : Prop where
  fs : Reachable (fsLoop ι v8) s.fs
  lefts_eq : s.lefts.map Prod.fst = s.fs.loop.ledger.submitted
  results_eq : s.results.map Prod.fst = s.fs.loop.ledger.called
  settled_eq : s.settled.map Prod.fst = callbacks s.fs.loop.events
  fresh : ∀ r call left, (r, call) ∈ s.fs.issued → (r, left) ∈ s.lefts →
    r ∉ s.fs.loop.ledger.called → call.Fresh left s.fs.heap r
  ready : ∀ r call left result, (r, call) ∈ s.fs.issued → (r, left) ∈ s.lefts →
    (r, result) ∈ s.results → r ∈ s.fs.active →
      ∃ req, RequestAt s.fs.heap r req ∧ req.call s.fs.heap = call.outcome left result
  ended : ∀ r call left result value, (r, call) ∈ s.fs.issued → (r, left) ∈ s.lefts →
    (r, result) ∈ s.results → (r, value) ∈ s.settled → value = call.outcome left result
  live : ∀ a, (s.fs.heap.objs a).isSome → a ∈ ownedBy s.fs.heap s.fs.active

variable {s s' : FsPromises ι ν}

theorem Inv.base (h : s.Inv v8) : s.fs.Inv v8 := FsState.Inv.of_reachable h.fs

theorem Inv.left_submitted (h : s.Inv v8) {r : Nat} {left : Nat → UInt8}
    (hr : (r, left) ∈ s.lefts) : r ∈ s.fs.loop.ledger.submitted := by
  rw [← h.lefts_eq]
  exact List.mem_map_of_mem hr

theorem Inv.result_called (h : s.Inv v8) {r : Nat} {result : SysResult}
    (hr : (r, result) ∈ s.results) : r ∈ s.fs.loop.ledger.called := by
  rw [← h.results_eq]
  exact List.mem_map_of_mem hr

theorem Inv.settled_called (h : s.Inv v8) {r : Nat} {value : CRun Settled}
    (hr : (r, value) ∈ s.settled) : r ∈ s.fs.loop.ledger.called := by
  refine callbacks_called h.base.loop ?_
  rw [← h.settled_eq]
  exact List.mem_map_of_mem hr

theorem Inv.init : (fsPromises ι v8).init.Inv v8 where
  fs := Reachable.init
  lefts_eq := rfl
  results_eq := rfl
  settled_eq := rfl
  fresh := fun _ _ _ hr => nomatch hr
  ready := fun _ _ _ _ hr => nomatch hr
  ended := fun _ _ _ _ _ hr => nomatch hr
  live := fun _ hlive => nomatch hlive

/-- A fresh request stays fresh where nobody touches its blocks. -/
theorem fresh_congr {left : Nat → UInt8} {h h' : Heap Object} {l : List Nat} {r : Nat}
    {call : FsCall ν} (hr : r ∈ l) (hfresh : call.Fresh left h r)
    (hsame : ∀ a ∈ ownedBy h l, h'.objs a = h.objs a) : call.Fresh left h' r := by
  obtain ⟨req, hreq⟩ := hfresh
  refine ⟨req, hreq.at_eq.congr hr hsame, hreq.op_eq, hreq.callback_eq, hreq.errnum_eq,
    hreq.errbuf_eq, ?_⟩
  cases call with
  | «open» args => exact trivial
  | close args => exact trivial
  | read args =>
      obtain ⟨a, hptr, ha⟩ := Option.bind_eq_some_iff.1 hreq.slot
      have hmem : a ∈ ownedBy h l := mem_ownedBy hr (by
        rw [hreq.at_eq.blocksAt_eq]
        exact EioState.mem_blocks hptr)
      rw [FsCall.Slot, hptr, Option.bind_some, hsame a hmem]
      exact ha

/-- The end of a request does not change where nobody touches its blocks. -/
theorem ready_congr {h h' : Heap Object} {l : List Nat} {r : Nat} {value : CRun Settled}
    (hr : r ∈ l) (hready : ∃ req, RequestAt h r req ∧ req.call h = value)
    (hsame : ∀ a ∈ ownedBy h l, h'.objs a = h.objs a) :
    ∃ req, RequestAt h' r req ∧ req.call h' = value := by
  obtain ⟨req, hreq, hcall⟩ := hready
  refine ⟨req, hreq.congr hr hsame, ?_⟩
  rw [← hcall]
  refine FsCall.call_congr (r := r) fun a ha => hsame a (mem_ownedBy hr ?_)
  rw [hreq.blocksAt_eq]
  exact ha

omit [DecidableEq ι] [Fintype ι] in
/-- The pairs of a list of distinct keys and of one more. -/
theorem mem_concat {β : Type} {l : List (Nat × β)} {r q : Nat} {v w : β}
    (hfresh : r ∉ l.map Prod.fst) :
    (q, v) ∈ l ++ [(r, w)] ↔ (q, v) ∈ l ∧ q ≠ r ∨ q = r ∧ v = w := by
  rw [List.mem_append, List.mem_singleton, Prod.mk.injEq]
  refine or_congr_left (iff_self_and.2 fun hmem heq => hfresh ?_)
  rw [← heq]
  exact List.mem_map_of_mem hmem

theorem ownedBy_append (h : Heap Object) (l m : List Nat) :
    ownedBy h (l ++ m) = ownedBy h l + ownedBy h m := by
  rw [ownedBy, List.map_append, List.sum_append, ownedBy, ownedBy]

theorem ownedBy_singleton (h : Heap Object) (r : Nat) : ownedBy h [r] = blocksAt h r := by
  rw [ownedBy, List.map_cons, List.map_nil, List.sum_cons, List.sum_nil, add_zero]

theorem Inv.pass {a : EvLoopAction ι Nat} (h : s.Inv v8)
    (hstep : s.step v8 (.pass a) = some s') : s'.Inv v8 := by
  obtain ⟨fs, hfs, rfl⟩ := Option.map_eq_some_iff.1 hstep
  have hpassed := h.base.passed hfs
  have hlefts : s.lefts ++ s.fs.leftBy v8 (.pass a) = s.lefts := List.append_nil _
  have hresults : s.results ++ s.fs.resultBy (.pass a) = s.results := List.append_nil _
  rw [hlefts, hresults]
  refine ⟨h.fs.step (.pass a) hfs, h.lefts_eq.trans hpassed.submitted_eq.symm,
    h.results_eq.trans hpassed.called_eq.symm, ?_, ?_, ?_, ?_, ?_⟩
  · rw [List.map_append, h.settled_eq]
    rcases hpassed.callback with ⟨hsame, hnone⟩ | ⟨r, req, _, _, _, hmore, hsome⟩
    · rw [hsame, hnone, List.map_nil, List.append_nil]
    · rw [hmore, hsome, List.map_cons, List.map_nil]
  · simp only [hpassed.issued_eq, hpassed.called_eq, hpassed.heap_eq]
    exact h.fresh
  · simp only [hpassed.issued_eq, hpassed.active_eq, hpassed.heap_eq]
    exact h.ready
  · simp only [hpassed.issued_eq]
    intro q call left result value hcall hleft hresult hvalue
    rcases List.mem_append.1 hvalue with hold | hnew
    · exact h.ended q call left result value hcall hleft hresult hold
    · rcases hpassed.callback with ⟨_, hnone⟩ | ⟨r, req, hr, hreq, _, _, hsome⟩
      · rw [hnone] at hnew
        cases hnew
      · rw [hsome] at hnew
        cases List.mem_singleton.1 hnew
        obtain ⟨req', hreq', hready⟩ := h.ready q call left result hcall hleft hresult hr
        have heq : req' = req := by
          have hobj := hreq'.1.symm.trans hreq.1
          cases hobj
          rfl
        rw [← hready, heq]
  · simp only [hpassed.active_eq, hpassed.heap_eq]
    exact h.live

theorem Inv.js {call : FsCall ν} {old : EioReq} {left : Nat → UInt8} {w : Option ι} (h : s.Inv v8)
    (hstep : s.step v8 (.js call old left w) = some s') : s'.Inv v8 := by
  obtain ⟨fs, hfs, rfl⟩ := Option.map_eq_some_iff.1 hstep
  obtain ⟨hrfresh, hsubmitted, hcalled, hevents, hheap, hissued, hactive, hsame⟩ :=
    h.base.added hfs
  have hresults : s.results ++ s.fs.resultBy (.js call old left w) = s.results := List.append_nil _
  have hsettled : s.settled ++ s.fs.settledBy (.js call old left w) = s.settled :=
    List.append_nil _
  have hlefts : s.fs.leftBy v8 (.js call old left w)
    = [((call.issue v8 old left s.fs.heap).r, left)] := rfl
  have hissue := FsCall.issue_fresh v8 old left s.fs.heap call
  have hleaves := FsCall.issue_leaves v8 old left s.fs.heap call
  have haccounts := FsCall.issue_accounts v8 old left s.fs.heap call
  rw [hresults, hsettled, hlefts]
  generalize call.issue v8 old left s.fs.heap = x at *
  rw [← hheap] at hissue haccounts
  have hnew : RequestAt fs.heap x.r x.req := by
    rw [hheap]
    exact ⟨hleaves.request, hleaves.plain⟩
  have hkeys : x.r ∉ s.lefts.map Prod.fst := by
    rw [h.lefts_eq]
    exact hrfresh
  have hcalls : x.r ∉ s.fs.issued.map Prod.fst := by
    rw [h.base.issued_eq]
    exact hrfresh
  have hne : ∀ {q}, q ∈ s.fs.loop.ledger.called → q ≠ x.r := fun hq heq =>
    hrfresh (heq ▸ called_submitted h.base.loop hq)
  refine ⟨h.fs.step (.js call old left w) hfs, ?_, h.results_eq.trans hcalled.symm,
    h.settled_eq.trans (congrArg callbacks hevents).symm, ?_, ?_, ?_, ?_⟩
  · rw [List.map_append, h.lefts_eq, hsubmitted]
    rfl
  · simp only [hissued, hcalled]
    intro q c l hcall hleft hnot
    rcases (mem_concat hcalls).1 hcall with ⟨hcall, hq⟩ | ⟨rfl, rfl⟩
    · rcases (mem_concat hkeys).1 hleft with ⟨hleft, _⟩ | ⟨heq, _⟩
      · exact fresh_congr (h.base.waiting_active (h.left_submitted hleft) hnot)
          (h.fresh q c l hcall hleft hnot) hsame
      · exact absurd heq hq
    · rcases (mem_concat hkeys).1 hleft with ⟨_, hq⟩ | ⟨_, rfl⟩
      · exact absurd rfl hq
      · exact hissue
  · simp only [hissued, hactive]
    intro q c l result hcall hleft hresult hq
    have hold := hne (h.result_called hresult)
    rcases (mem_concat hcalls).1 hcall with ⟨hcall, _⟩ | ⟨heq, _⟩
    · rcases (mem_concat hkeys).1 hleft with ⟨hleft, _⟩ | ⟨heq, _⟩
      · rcases List.mem_append.1 hq with hq | hq
        · exact ready_congr hq (h.ready q c l result hcall hleft hresult hq) hsame
        · exact absurd (List.mem_singleton.1 hq) hold
      · exact absurd heq hold
    · exact absurd heq hold
  · simp only [hissued]
    intro q c l result value hcall hleft hresult hvalue
    have hold := hne (h.result_called hresult)
    rcases (mem_concat hcalls).1 hcall with ⟨hcall, _⟩ | ⟨heq, _⟩
    · rcases (mem_concat hkeys).1 hleft with ⟨hleft, _⟩ | ⟨heq, _⟩
      · exact h.ended q c l result value hcall hleft hresult hvalue
      · exact absurd heq hold
    · exact absurd heq hold
  · simp only [hactive]
    rw [ownedBy_append, ownedBy_congr h.base.active hsame, ownedBy_singleton, hnew.blocksAt_eq,
      add_comm]
    exact haccounts.live (by rw [zero_add]; exact h.live)

/-- What is live after a step on the request at `r`, if it leaves none of its blocks behind. -/
theorem Inv.live_after (h : s.Inv v8) {r : Nat} (hr : r ∈ s.fs.active) {req : EioReq}
    {h' : Heap Object} {bs : Multiset Nat} (hreq : RequestAt s.fs.heap r req)
    (haccounts : Accounts s.fs.heap (req.blocks r) h' bs)
    (hsame : ∀ a ∈ ownedBy s.fs.heap (s.fs.active.erase r), h'.objs a = s.fs.heap.objs a) :
    ∀ a, (h'.objs a).isSome → a ∈ bs + ownedBy h' (s.fs.active.erase r) := by
  rw [ownedBy_congr (fun q hq => h.base.active q (List.mem_of_mem_erase hq)) hsame]
  refine haccounts.live fun a ha => ?_
  have hmem := h.live a ha
  rw [ownedBy_erase s.fs.heap hr, hreq.blocksAt_eq] at hmem
  exact hmem

theorem Inv.free (h : s.Inv v8) (hstep : s.step v8 .free = some s') : s'.Inv v8 := by
  obtain ⟨fs, hfs, rfl⟩ := Option.map_eq_some_iff.1 hstep
  obtain ⟨r, req, hfreed⟩ := h.base.freed hfs
  have hlefts : s.lefts ++ s.fs.leftBy v8 .free = s.lefts := List.append_nil _
  have hresults : s.results ++ s.fs.resultBy .free = s.results := List.append_nil _
  have hsettled : s.settled ++ s.fs.settledBy .free = s.settled := List.append_nil _
  rw [hlefts, hresults, hsettled]
  refine ⟨h.fs.step .free hfs, h.lefts_eq.trans ?_, h.results_eq.trans ?_,
    h.settled_eq.trans hfreed.callbacks_eq.symm, ?_, ?_, ?_, ?_⟩
  · rw [hfreed.ledger_eq]
  · rw [hfreed.ledger_eq]
  · simp only [hfreed.issued_eq, hfreed.ledger_eq]
    intro q call left hcall hleft hnot
    have hq := h.base.waiting_active (h.left_submitted hleft) hnot
    have hqr : q ≠ r := fun heq => hnot (heq ▸ hfreed.r_called)
    exact fresh_congr ((List.mem_erase_of_ne hqr).2 hq) (h.fresh q call left hcall hleft hnot)
      hfreed.same
  · simp only [hfreed.issued_eq, hfreed.active_eq]
    intro q call left result hcall hleft hresult hq
    exact ready_congr hq
      (h.ready q call left result hcall hleft hresult (List.mem_of_mem_erase hq)) hfreed.same
  · simp only [hfreed.issued_eq]
    exact h.ended
  · simp only [hfreed.active_eq]
    have haccounts := eioReqFree_accounts r req s.fs.heap
    rw [← hfreed.heap_eq] at haccounts
    have hlive := h.live_after hfreed.mem_active hfreed.at_eq haccounts hfreed.same
    rw [zero_add] at hlive
    exact hlive

/-- A request that waits for its work is as one JS call left it. -/
theorem Inv.waiting_fresh (h : s.Inv v8) {r : Nat} (hr : r ∈ s.fs.loop.ledger.submitted)
    (hnot : r ∉ s.fs.loop.ledger.called) : ∃ call left, (r, call) ∈ s.fs.issued ∧
      (r, left) ∈ s.lefts ∧ FsCall.Fresh left s.fs.heap r call := by
  obtain ⟨⟨q, call⟩, hcall, rfl⟩ := List.mem_map.1 (h.base.issued_eq ▸ hr)
  obtain ⟨⟨q', left⟩, hleft, heq⟩ := List.mem_map.1 (h.lefts_eq ▸ hr)
  obtain rfl : q' = q := heq
  exact ⟨call, left, hcall, hleft, h.fresh q' call left hcall hleft hnot⟩

/-- The work functions that a binding asks for leave no block of the request behind. -/
theorem work_accounts {call : FsCall ν} {left : Nat → UInt8} {h : Heap Object} {r : Nat}
    {req : EioReq} (hfresh : call.FreshAt left h r req) {result : SysResult} {t : EioState}
    (hrun : EioState.work result ⟨req, h, []⟩ = .ok t) :
    Accounts h (req.blocks r) (t.heap.modify r fun _ => .request t.req) (t.req.blocks r) := by
  have hplain : call.op.isVector = false := by cases call <;> rfl
  have hspares : EioState.Spares ⟨req, h, []⟩ t := by
    rw [EioState.work, hfresh.op_eq] at hrun
    exact EioState.apply_spares hfresh.errbuf_eq hplain (fun hop => by cases call <;> cases hop)
      hrun
  exact (hspares r).trans (Accounts.modify _ _ _ _)

theorem Inv.work {i : ι} {result : SysResult} (h : s.Inv v8)
    (hstep : s.step v8 (.work i result) = some s') : s'.Inv v8 := by
  obtain ⟨fs, hfs, rfl⟩ := Option.map_eq_some_iff.1 hstep
  obtain ⟨r, req, t, hphase, hworked⟩ := h.base.worked hfs
  have hlefts : s.lefts ++ s.fs.leftBy v8 (.work i result) = s.lefts := List.append_nil _
  have hsettled : s.settled ++ s.fs.settledBy (.work i result) = s.settled := List.append_nil _
  have hresults : s.fs.resultBy (.work i result) = [(r, result)] := by
    simp only [FsState.resultBy, hphase]
  rw [hlefts, hsettled, hresults]
  have hkeys : r ∉ s.results.map Prod.fst := by
    rw [h.results_eq]
    exact hworked.r_fresh
  -- the request at `r` is the one its JS call left
  have hfreshAt : ∀ {call : FsCall ν} {left}, FsCall.Fresh left s.fs.heap r call →
      FsCall.FreshAt left s.fs.heap r call req := by
    rintro call left ⟨req', hreq'⟩
    have hobj := hreq'.at_eq.1.symm.trans hworked.at_eq.1
    cases hobj
    exact hreq'
  have howns := h.base.owns
  rw [ownedBy_erase s.fs.heap hworked.mem_active, hworked.at_eq.blocksAt_eq] at howns
  refine ⟨h.fs.step (.work i result) hfs, h.lefts_eq.trans hworked.submitted_eq.symm, ?_,
    h.settled_eq.trans (congrArg callbacks hworked.events_eq).symm, ?_, ?_, ?_, ?_⟩
  · rw [List.map_append, h.results_eq, hworked.called_eq]
    rfl
  · simp only [hworked.issued_eq, hworked.called_eq]
    intro q call left hcall hleft hnot
    rw [List.mem_append, not_or, List.mem_singleton] at hnot
    have hq := h.base.waiting_active (h.left_submitted hleft) hnot.1
    exact fresh_congr ((List.mem_erase_of_ne hnot.2).2 hq) (h.fresh q call left hcall hleft hnot.1)
      hworked.same
  · simp only [hworked.issued_eq, hworked.active_eq]
    intro q call left result' hcall hleft hresult hq
    rcases (mem_concat hkeys).1 hresult with ⟨hresult, hqr⟩ | ⟨rfl, rfl⟩
    · exact ready_congr ((List.mem_erase_of_ne hqr).2 hq)
        (h.ready q call left result' hcall hleft hresult hq) hworked.same
    · refine ⟨t.req, hworked.at_new, ?_⟩
      rw [hworked.heap_eq]
      exact FsCall.work_outcome (hfreshAt (h.fresh q call left hcall hleft hworked.r_fresh))
        h.base.sound howns hworked.run
  · simp only [hworked.issued_eq]
    intro q call left result' value hcall hleft hresult hvalue
    rcases (mem_concat hkeys).1 hresult with ⟨hresult, _⟩ | ⟨rfl, _⟩
    · exact h.ended q call left result' value hcall hleft hresult hvalue
    · exact absurd (h.settled_called hvalue) hworked.r_fresh
  · obtain ⟨call, left, _, _, hfresh⟩ :=
      h.waiting_fresh (FsState.mem_active.1 hworked.mem_active).1 hworked.r_fresh
    have haccounts := work_accounts (hfreshAt hfresh) hworked.run
    rw [← hworked.heap_eq] at haccounts
    simp only [hworked.active_eq]
    rw [ownedBy_erase _ hworked.mem_active, hworked.at_new.blocksAt_eq]
    exact h.live_after hworked.mem_active hworked.at_eq haccounts hworked.same

theorem Inv.of_reachable (hs : Reachable (fsPromises ι v8) s) : s.Inv v8 :=
  hs.invariant _ Inv.init fun _ a _ h hstep =>
    match a with
    | .js _ _ _ _ => h.js hstep
    | .work _ _ => h.work hstep
    | .free => h.free hstep
    | .pass _ => h.pass hstep

end Invariant

end FsPromises

section Runs

variable {ι ν : Type} [DecidableEq ι] [Fintype ι] {v8 : V8 ν} {s : FsPromises ι ν}

/-- **Isolation.** In every run each callback settles the promise of its own request, once, and with
    what the JS call alone would come to: however the other calls, the workers and the loop thread
    take turns. -/
theorem fs_promises_isolated (hs : Reachable (fsPromises ι v8) s) :
    s.settled.map Prod.fst = callbacks s.fs.loop.events ∧
    (callbacks s.fs.loop.events).Nodup ∧
    ∀ r value, (r, value) ∈ s.settled → ∃ call left result,
      (r, call) ∈ s.fs.issued ∧ (r, left) ∈ s.lefts ∧ (r, result) ∈ s.results ∧
        value = call.outcome left result := by
  have hinv := FsPromises.Inv.of_reachable hs
  refine ⟨hinv.settled_eq, hinv.base.handed_nodup.of_append_left, fun r value hvalue => ?_⟩
  have hcalled := hinv.settled_called hvalue
  have hsubmitted := called_submitted hinv.base.loop hcalled
  obtain ⟨⟨q, call⟩, hcall, hq⟩ := List.mem_map.1 (hinv.base.issued_eq ▸ hsubmitted)
  obtain ⟨⟨q', left⟩, hleft, hq'⟩ := List.mem_map.1 (hinv.lefts_eq ▸ hsubmitted)
  obtain ⟨⟨q'', result⟩, hresult, hq''⟩ := List.mem_map.1 (hinv.results_eq ▸ hcalled)
  obtain ⟨rfl, rfl, rfl⟩ : q = r ∧ q' = r ∧ q'' = r := ⟨hq, hq', hq''⟩
  exact ⟨call, left, result, hcall, hleft, hresult,
    hinv.ended _ call left result value hcall hleft hresult hvalue⟩

/-- **No leaks.** In every run the live blocks are the blocks of the requests on their way, and none
    of them has two owners. -/
theorem fs_live_iff (hs : Reachable (fsPromises ι v8) s) :
    (ownedBy s.fs.heap s.fs.active).Nodup ∧
      ∀ a, (s.fs.heap.objs a).isSome ↔ a ∈ ownedBy s.fs.heap s.fs.active := by
  have hinv := FsPromises.Inv.of_reachable hs
  exact ⟨hinv.base.owns.nodup, fun a => ⟨hinv.live a, hinv.base.owns.live a⟩⟩

end Runs

/-- `fs.close(3)` and `fs.open("f")` with two workers: the second request is done first, and its
    system call fails. -/
def twoFsCalls : List (FsAction (Fin 2) JsValue) :=
  [.pass (.work (.enter 0 none)), .pass (.work (.enter 1 none)),
    .js (.close [.integer 3]) .zero (fun _ => 0) (some 1),
    .js (.open [.string [102]]) .zero (fun _ => 0) (some 0),
    .pass (.work (.resume 1 none)), .pass (.work (.resume 0 none)), .work 0 (.failure badFile),
    .pass (.work (.ret 0)), .pass (.work (.append 0)), .work 1 (.success 0 []),
    .pass (.work (.ret 1)), .pass (.work (.append 1)), .pass (.run .epollWait), .pass (.run .read),
    .pass (.run .lock), .pass (.run .callback), .free, .pass (.run .callback)]

theorem fs_promises_isolated_two : ∃ s : FsPromises (Fin 2) JsValue,
    Reachable (fsPromises (Fin 2) JsValue.v8) s ∧
    s.settled = [(2, .ok (.reject 9 (bytes "Bad file descriptor"))), (0, .ok (.resolveInt 0))] ∧
    s.settled.map Prod.fst = callbacks s.fs.loop.events ∧
    (callbacks s.fs.loop.events).Nodup := by
  have hs := Reachable.init.run (show (fsPromises (Fin 2) JsValue.v8).run
    (fsPromises (Fin 2) JsValue.v8).init twoFsCalls = some _ from rfl)
  obtain ⟨hkeys, hnodup, _⟩ := fs_promises_isolated hs
  exact ⟨_, hs, rfl, hkeys, hnodup⟩

/-- The request of `fs.open` was freed, the other one is still on its way. -/
theorem fs_live_two : ∃ s : FsPromises (Fin 2) JsValue,
    Reachable (fsPromises (Fin 2) JsValue.v8) s ∧ s.fs.active = [0] ∧
    ∀ a, (s.fs.heap.objs a).isSome ↔ a ∈ ownedBy s.fs.heap s.fs.active := by
  have hs := Reachable.init.run (show (fsPromises (Fin 2) JsValue.v8).run
    (fsPromises (Fin 2) JsValue.v8).init twoFsCalls = some _ from rfl)
  exact ⟨_, hs, rfl, (fs_live_iff hs).2⟩

end Ryze
