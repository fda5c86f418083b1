import Ryze.Ev.EventLoop
import Ryze.Fs.Requests

set_option autoImplicit false

/-! # From JS to the system call

The bindings of `fs.cc`, the event loop of `ev.c` and the work functions of `eio.c` as one system: a
JS call stores its arguments in a request and adds it, any worker takes it at any time, and the loop
thread frees it. In every reachable state each request owns its blocks, and one that was not worked
on yet is as its JS call left it; so its system call receives what `Makes` says, however the calls
and the workers take turns. -/

namespace Ryze

open CLib Ownership Handoff Transition

/-! ## The system -/

structure FsState (ι ν : Type) where
  loop : EvLoopT ι Nat
  heap : Heap Object
  /-- the JS calls with the addresses of their requests -/
  issued : List (Nat × FsCall ν)
  /-- the system calls with the requests they were made for -/
  calls : List (Nat × Syscall)

inductive FsAction (ι ν : Type)
  /-- a JS call; `old` and `left` are what `malloc` leaves in the blocks, `w` is whom the signal
      wakes -/
  | js (call : FsCall ν) (old : EioReq) (left : Nat → UInt8) (w : Option ι)
  /-- `req->work(req)` by worker `i`, the system call ending with `result` -/
  | work (i : ι) (result : SysResult)
  /-- `EIO_REQ_FREE(req)` -/
  | free
  /-- any other step of the workers and the loop thread -/
  | pass (a : EvLoopAction ι Nat)

namespace FsState

section Step

variable {ι ν : Type}

/-- The request at `r` is worked on; a pointer to no request would do nothing. -/
def workOn (s : FsState ι ν) (r : Nat) (result : SysResult) : FsState ι ν :=
  match s.heap.objs r with
  | some (.request req) =>
    match EioState.work result ⟨req, s.heap, []⟩ with
    | .ok s' => { s with
        heap := s'.heap.modify r fun _ => .request s'.req
        calls := s.calls ++ s'.calls.map (r, ·) }
    | .error _ => s
  | _ => s

/-- `EIO_REQ_FREE(req)` -/
def freeReq (s : FsState ι ν) (r : Nat) : FsState ι ν :=
  match s.heap.objs r with
  | some (.request req) => { s with heap := eioReqFree r req s.heap }
  | _ => s

variable [DecidableEq ι] [Fintype ι]

def step (v8 : V8 ν) (s : FsState ι ν) : FsAction ι ν → Option (FsState ι ν)
  | .js call old left w =>
    let x := call.issue v8 old left s.heap
    (s.loop.step (.work (.add x.r w))).map fun loop => { s with
      loop := loop
      heap := x.heap
      issued := s.issued ++ [(x.r, call)] }
  | .work i result =>
    match s.loop.phase i with
    | .took r =>
      (s.loop.step (.work (.call i))).map fun loop => { s.workOn r result with loop := loop }
    | _ => none
  | .free =>
    match s.loop.loop with
    | .calling r => (s.loop.step (.run .free)).map fun loop => { s.freeReq r with loop := loop }
    | _ => none
  | .pass a => if a.quiet then (s.loop.step a).map fun loop => { s with loop := loop } else none

end Step

end FsState

/-- The loop as `ev_loop_init` leaves it, with nothing allocated. -/
def fsLoop (ι : Type) {ν : Type} [DecidableEq ι] [Fintype ι] (v8 : V8 ν) :
    System (FsState ι ν) (FsAction ι ν) where
  init := ⟨(eventLoop ι Nat).init, .empty, [], []⟩
  step := FsState.step v8

/-! ## What the requests own -/

/-- What the request at `r` owns. -/
def blocksAt (h : Heap Object) (r : Nat) : Multiset Nat :=
  match h.objs r with
  | some (.request req) => req.blocks r
  | _ => 0

/-- What the requests of a list own together. -/
def ownedBy (h : Heap Object) (l : List Nat) : Multiset Nat := (l.map (blocksAt h)).sum

/-- There is a request at `r`, and it has no array. -/
def RequestAt (h : Heap Object) (r : Nat) (req : EioReq) : Prop :=
  h.objs r = some (.request req) ∧ req.work.isVector = false

theorem RequestAt.blocksAt_eq {h : Heap Object} {r : Nat} {req : EioReq}
    (hr : RequestAt h r req) : blocksAt h r = req.blocks r := by
  rw [blocksAt, hr.1]

theorem RequestAt.self_mem {h : Heap Object} {r : Nat} {req : EioReq} (hr : RequestAt h r req) :
    r ∈ blocksAt h r := by
  rw [hr.blocksAt_eq, EioReq.blocks]
  simp

theorem ownedBy_erase (h : Heap Object) {l : List Nat} {r : Nat} (hr : r ∈ l) :
    ownedBy h l = blocksAt h r + ownedBy h (l.erase r) := by
  rw [ownedBy, ((List.perm_cons_erase hr).map (blocksAt h)).sum_eq, List.map_cons, List.sum_cons,
    ownedBy]

theorem mem_ownedBy {h : Heap Object} {l : List Nat} {r a : Nat} (hr : r ∈ l)
    (ha : a ∈ blocksAt h r) : a ∈ ownedBy h l := by
  rw [ownedBy_erase h hr]
  exact Multiset.mem_add.2 (Or.inl ha)

/-- What the requests own is the same after a step that does not touch it. -/
theorem ownedBy_congr {h h' : Heap Object} {l : List Nat}
    (hl : ∀ r ∈ l, ∃ req, RequestAt h r req)
    (hsame : ∀ a ∈ ownedBy h l, h'.objs a = h.objs a) : ownedBy h' l = ownedBy h l := by
  refine congrArg List.sum (List.map_congr_left fun r hr => ?_)
  obtain ⟨req, hreq⟩ := hl r hr
  rw [blocksAt, hsame r (mem_ownedBy hr hreq.self_mem), hreq.1, hreq.blocksAt_eq]

theorem RequestAt.congr {h h' : Heap Object} {l : List Nat} {r : Nat} {req : EioReq} (hr : r ∈ l)
    (hreq : RequestAt h r req) (hsame : ∀ a ∈ ownedBy h l, h'.objs a = h.objs a) :
    RequestAt h' r req :=
  ⟨(hsame r (mem_ownedBy hr hreq.self_mem)).trans hreq.1, hreq.2⟩

/-- A step that does not touch what a request owns does not touch its arguments. -/
theorem FsCall.Stored.congr {ν : Type} {v8 : V8 ν} {h h' : Heap Object} {l : List Nat} {r : Nat}
    {call : FsCall ν} (hr : r ∈ l) (hstored : call.Stored v8 h r)
    (hsame : ∀ a ∈ ownedBy h l, h'.objs a = h.objs a) : call.Stored v8 h' r := by
  cases call with
  | «open» args =>
      obtain ⟨req, path, hreq, hwork, hptr, hpath, hlo⟩ := hstored
      have hat : RequestAt h r req := ⟨hreq, by rw [hwork]; rfl⟩
      have hmem : path ∈ blocksAt h r := by
        rw [hat.blocksAt_eq]
        exact EioState.mem_blocks hptr
      exact ⟨req, path, (hat.congr hr hsame).1, hwork, hptr,
        (hsame path (mem_ownedBy hr hmem)).trans hpath, hlo⟩
  | read args =>
      obtain ⟨req, hreq, hwork, hlo, hsize⟩ := hstored
      have hat : RequestAt h r req := ⟨hreq, by rw [hwork]; rfl⟩
      exact ⟨req, (hat.congr hr hsame).1, hwork, hlo, hsize⟩
  | close args =>
      obtain ⟨req, hreq, hwork, hlo⟩ := hstored
      have hat : RequestAt h r req := ⟨hreq, by rw [hwork]; rfl⟩
      exact ⟨req, (hat.congr hr hsame).1, hwork, hlo⟩

/-- The request that was worked on is written back to its block. -/
theorem writeBack_transfer {h : Heap Object} {r : Nat} {req : EioReq} {t : EioState}
    (hworks : EioState.Works ⟨req, h, []⟩ t) :
    Transfer h (req.blocks r) (t.heap.modify r fun _ => .request t.req) (t.req.blocks r) := by
  have hmodify := (Transfer.modify t.heap r fun _ => .request t.req).frame
    (t.req.slots + own t.req.errbuf)
  exact (hworks.transfer r).trans (hmodify.congr (add_comm _ _) (add_comm _ _))

theorem RequestAt.writeBack {h : Heap Object} {r : Nat} {req : EioReq} {others : Multiset Nat}
    (howns : (h.modify r fun _ => .request req).Owns (req.blocks r + others))
    (hwork : req.work.isVector = false) :
    RequestAt (h.modify r fun _ => .request req) r req := by
  have hlive := howns.live r (by simp [EioReq.blocks])
  rw [Heap.modify_self, Option.isSome_map] at hlive
  obtain ⟨o, ho⟩ := Option.isSome_iff_exists.1 hlive
  exact ⟨by rw [Heap.modify_self, ho]; rfl, hwork⟩

/-! ## The invariant -/

namespace FsState

section Invariant

variable {ι ν : Type} [DecidableEq ι] [Fintype ι] {v8 : V8 ν}

/-- The requests that were submitted and not freed. -/
def active (s : FsState ι ν) : List Nat :=
  s.loop.ledger.submitted.filter (· ∉ frees s.loop.events)

/-- Each active request owns its blocks, and one that work was not called on is as it was issued;
    each call of work has made one system call. -/
structure Inv (v8 : V8 ν) (s : FsState ι ν) : Prop where
  loop : Reachable (eventLoop ι Nat) s.loop
  issued_eq : s.issued.map Prod.fst = s.loop.ledger.submitted
  calls_eq : s.calls.map Prod.fst = s.loop.ledger.called
  sound : s.heap.Sound
  owns : s.heap.Owns (ownedBy s.heap s.active)
  active : ∀ r ∈ s.active, ∃ req, RequestAt s.heap r req
  stored : ∀ r call, (r, call) ∈ s.issued → r ∉ s.loop.ledger.called → call.Stored v8 s.heap r
  made : ∀ r call sys, (r, call) ∈ s.issued → (r, sys) ∈ s.calls → call.Makes v8 sys

omit [Fintype ι] [DecidableEq ι] in
theorem mem_active {s : FsState ι ν} {r : Nat} :
    r ∈ s.active ↔ r ∈ s.loop.ledger.submitted ∧ r ∉ frees s.loop.events := by
  rw [FsState.active, List.mem_filter, decide_eq_true_iff]

omit [Fintype ι] [DecidableEq ι] in
theorem active_congr {s s' : FsState ι ν}
    (hsubmitted : s'.loop.ledger.submitted = s.loop.ledger.submitted)
    (hfrees : frees s'.loop.events = frees s.loop.events) : s'.active = s.active := by
  rw [FsState.active, FsState.active, hsubmitted, hfrees]

/-- A request that work was not called on is active. -/
theorem Inv.waiting_active {s : FsState ι ν} (h : s.Inv v8) {r : Nat}
    (hsubmitted : r ∈ s.loop.ledger.submitted) (hcalled : r ∉ s.loop.ledger.called) :
    r ∈ s.active := by
  refine mem_active.2 ⟨hsubmitted, fun hmem => hcalled (callbacks_called h.loop ?_)⟩
  rw [callbacks_eq h.loop]
  exact List.mem_append_left _ hmem

theorem Inv.issued_submitted {s : FsState ι ν} (h : s.Inv v8) {r : Nat} {call : FsCall ν}
    (hr : (r, call) ∈ s.issued) : r ∈ s.loop.ledger.submitted := by
  rw [← h.issued_eq]
  exact List.mem_map_of_mem hr

theorem Inv.made_called {s : FsState ι ν} (h : s.Inv v8) {r : Nat} {sys : Syscall}
    (hr : (r, sys) ∈ s.calls) : r ∈ s.loop.ledger.called := by
  rw [← h.calls_eq]
  exact List.mem_map_of_mem hr

theorem Inv.init : (fsLoop ι v8).init.Inv v8 where
  loop := Reachable.init
  issued_eq := rfl
  calls_eq := rfl
  sound := Heap.Sound.empty
  owns := Heap.Owns.zero
  active := fun _ hr => nomatch hr
  stored := fun _ _ hr => nomatch hr
  made := fun _ _ _ hr => nomatch hr

/-- A quiet step of the loop changes none of it. -/
theorem Inv.pass {s s' : FsState ι ν} {a : EvLoopAction ι Nat} (h : s.Inv v8)
    (hstep : s.step v8 (.pass a) = some s') : s'.Inv v8 := by
  simp only [FsState.step] at hstep
  split at hstep
  · next hquiet =>
      obtain ⟨loop, hloop, rfl⟩ := Option.map_eq_some_iff.1 hstep
      obtain ⟨hsubmitted, hcalled, hfrees⟩ := EvLoopT.step_quiet hquiet hloop
      have hactive : FsState.active { s with loop := loop } = s.active :=
        active_congr hsubmitted hfrees
      refine ⟨h.loop.step a hloop, h.issued_eq.trans hsubmitted.symm,
        h.calls_eq.trans hcalled.symm, h.sound, ?_, ?_, ?_, h.made⟩
      · rw [hactive]
        exact h.owns
      · rw [hactive]
        exact h.active
      · simp only
        rw [hcalled]
        exact h.stored
  · cases hstep

/-- A call of a binding adds a request with its arguments and touches no other. -/
theorem Inv.js {s s' : FsState ι ν} {call : FsCall ν} {old : EioReq} {left : Nat → UInt8}
    {w : Option ι} (h : s.Inv v8) (hstep : s.step v8 (.js call old left w) = some s') :
    s'.Inv v8 := by
  simp only [FsState.step] at hstep
  obtain ⟨loop, hloop, rfl⟩ := Option.map_eq_some_iff.1 hstep
  obtain ⟨hfresh, hsubmitted, hcalled, hfrees⟩ := EvLoopT.step_add hloop
  have hleaves := FsCall.issue_leaves v8 old left s.heap call
  generalize call.issue v8 old left s.heap = x at *
  obtain ⟨hsound, howns, hsame⟩ := hleaves.transfer _ h.sound (by rw [zero_add]; exact h.owns)
  have hrfree : x.r ∉ frees s.loop.events := fun hmem => hfresh (called_submitted h.loop
    (callbacks_called h.loop (by rw [callbacks_eq h.loop]; exact List.mem_append_left _ hmem)))
  have hactive : FsState.active { s with
      loop := loop, heap := x.heap, issued := s.issued ++ [(x.r, call)] } = s.active ++ [x.r] := by
    rw [FsState.active, hsubmitted, hfrees, List.filter_append, FsState.active]
    congr 1
    simp [hrfree]
  have hnew : RequestAt x.heap x.r x.req := ⟨hleaves.request, hleaves.plain⟩
  refine ⟨h.loop.step (.work (.add x.r w)) hloop, ?_, h.calls_eq.trans hcalled.symm, hsound,
    ?_, ?_, ?_, ?_⟩
  · simp only
    rw [List.map_append, h.issued_eq, hsubmitted]
    rfl
  · rw [hactive, ownedBy, List.map_append, List.sum_append]
    simp only [List.map_cons, List.map_nil, List.sum_cons, List.sum_nil, add_zero]
    rw [hnew.blocksAt_eq, add_comm]
    have hold := ownedBy_congr h.active hsame
    rw [ownedBy] at hold
    rw [hold]
    exact howns
  · rw [hactive]
    intro r hr
    rcases List.mem_append.1 hr with hr | hr
    · obtain ⟨req, hreq⟩ := h.active r hr
      exact ⟨req, hreq.congr hr hsame⟩
    · rw [List.mem_singleton.1 hr]
      exact ⟨x.req, hnew⟩
  · intro r c hr hnot
    simp only at hnot
    rw [hcalled] at hnot
    rcases List.mem_append.1 hr with hr | hr
    · exact (h.stored r c hr hnot).congr (h.waiting_active (h.issued_submitted hr) hnot) hsame
    · cases List.mem_singleton.1 hr
      exact hleaves.stored
  · intro r c sys hr hsys
    rcases List.mem_append.1 hr with hr | hr
    · exact h.made r c sys hr hsys
    · cases List.mem_singleton.1 hr
      exact absurd (called_submitted h.loop (h.made_called hsys)) hfresh

theorem Inv.active_nodup {s : FsState ι ν} (h : s.Inv v8) : s.active.Nodup :=
  (submitted_nodup h.loop).filter _

/-- What a step on one request leaves to the others. -/
theorem Inv.others {s : FsState ι ν} (h : s.Inv v8) {r : Nat} (hr : r ∈ s.active) {req : EioReq}
    {h' : Heap Object} {bs : Multiset Nat} (hreq : RequestAt s.heap r req)
    (ht : Transfer s.heap (req.blocks r) h' bs) :
    h'.Sound ∧ h'.Owns (bs + ownedBy h' (s.active.erase r)) ∧
      ∀ a ∈ ownedBy s.heap (s.active.erase r), h'.objs a = s.heap.objs a := by
  have howns := h.owns
  rw [ownedBy_erase s.heap hr, hreq.blocksAt_eq] at howns
  obtain ⟨hsound, howns', hsame⟩ := ht _ h.sound howns
  refine ⟨hsound, ?_, hsame⟩
  rw [ownedBy_congr (fun q hq => h.active q (List.mem_of_mem_erase hq)) hsame]
  exact howns'

/-- Work on a request that waits for it makes one system call, the one its JS call is made to. -/
theorem Inv.workOn {s : FsState ι ν} (h : s.Inv v8) {r : Nat} {req : EioReq}
    (hsubmitted : r ∈ s.loop.ledger.submitted) (hfresh : r ∉ s.loop.ledger.called)
    (hreq : RequestAt s.heap r req) (result : SysResult) :
    ∃ t sys, EioState.Works ⟨req, s.heap, []⟩ t ∧
      s.workOn r result = { s with
        heap := t.heap.modify r fun _ => .request t.req
        calls := s.calls ++ [(r, sys)] } ∧
      ∀ call, (r, call) ∈ s.issued → call.Makes v8 sys := by
  obtain ⟨t, hrun, hworks⟩ := EioState.apply_works result ⟨req, s.heap, []⟩ hreq.2
  have hwork : EioState.work result ⟨req, s.heap, []⟩ = .ok t := hrun
  have hmade : ∀ call, (r, call) ∈ s.issued → ∃ sys, t.calls = [sys] ∧ call.Makes v8 sys := by
    intro call hcall
    obtain ⟨req', hreq', -, hcalls⟩ := (h.stored r call hcall hfresh).work
    rw [hreq.1] at hreq'
    cases hreq'
    exact hcalls result t hwork
  obtain ⟨call, hcall⟩ : ∃ call, (r, call) ∈ s.issued := by
    rw [← h.issued_eq] at hsubmitted
    obtain ⟨⟨q, call⟩, hcall, rfl⟩ := List.mem_map.1 hsubmitted
    exact ⟨call, hcall⟩
  obtain ⟨sys, hsys, -⟩ := hmade call hcall
  refine ⟨t, sys, hworks, ?_, fun c hc => ?_⟩
  · simp only [FsState.workOn, hreq.1, hwork, hsys, List.map_cons, List.map_nil]
  · obtain ⟨sys', hsys', hmakes⟩ := hmade c hc
    rw [hsys] at hsys'
    cases hsys'
    exact hmakes

/-- A work function passes on the arguments of its request and touches no other. -/
theorem Inv.work {s s' : FsState ι ν} {i : ι} {result : SysResult} (h : s.Inv v8)
    (hstep : s.step v8 (.work i result) = some s') : s'.Inv v8 := by
  simp only [FsState.step] at hstep
  split at hstep
  · next r hi =>
      obtain ⟨loop, hloop, rfl⟩ := Option.map_eq_some_iff.1 hstep
      obtain ⟨hsubmitted, hcalled, hevents⟩ := EvLoopT.step_call hi hloop
      have hfresh := took_not_called h.loop hi hloop
      have hr : r ∈ s.active := h.waiting_active (took_submitted h.loop hi) hfresh
      obtain ⟨req, hreq⟩ := h.active r hr
      obtain ⟨t, sys, hworks, hon, hmakes⟩ :=
        h.workOn (mem_active.1 hr).1 hfresh hreq result
      obtain ⟨hsound, howns, hsame⟩ := h.others hr hreq (writeBack_transfer hworks)
      have hnew := RequestAt.writeBack howns (by rw [hworks.work]; exact hreq.2)
      rw [hon]
      have hactive : FsState.active { s with
          loop := loop
          heap := t.heap.modify r fun _ => .request t.req
          calls := s.calls ++ [(r, sys)] } = s.active :=
        active_congr hsubmitted (congrArg frees hevents)
      refine ⟨h.loop.step (.work (.call i)) hloop, h.issued_eq.trans hsubmitted.symm, ?_, hsound,
        ?_, ?_, ?_, ?_⟩
      · simp only
        rw [List.map_append, h.calls_eq, hcalled]
        rfl
      · rw [hactive]
        simp only
        rw [ownedBy_erase _ hr, hnew.blocksAt_eq]
        exact howns
      · rw [hactive]
        intro q hq
        by_cases hqr : q = r
        · exact ⟨t.req, hqr ▸ hnew⟩
        · obtain ⟨req', hreq'⟩ := h.active q hq
          exact ⟨req', hreq'.congr ((List.mem_erase_of_ne hqr).2 hq) hsame⟩
      · intro q c hq hnot
        simp only at hnot
        rw [hcalled, List.mem_append, not_or, List.mem_singleton] at hnot
        have hqa := h.waiting_active (h.issued_submitted hq) hnot.1
        exact (h.stored q c hq hnot.1).congr ((List.mem_erase_of_ne hnot.2).2 hqa) hsame
      · intro q c sys' hq hsys'
        rcases List.mem_append.1 hsys' with hold | hlast
        · exact h.made q c sys' hq hold
        · cases List.mem_singleton.1 hlast
          exact hmakes c hq
  · cases hstep

/-- `EIO_REQ_FREE` takes one request out and touches no other. -/
theorem Inv.free {s s' : FsState ι ν} (h : s.Inv v8) (hstep : s.step v8 .free = some s') :
    s'.Inv v8 := by
  simp only [FsState.step] at hstep
  split at hstep
  · next r hcalling =>
      obtain ⟨loop, hloop, rfl⟩ := Option.map_eq_some_iff.1 hstep
      obtain ⟨hledger, hfrees⟩ := EvLoopT.step_free hcalling hloop
      obtain ⟨hcallback, hnotfreed⟩ := calling_not_freed h.loop hcalling
      have hcalled := callbacks_called h.loop hcallback
      have hr : r ∈ s.active := mem_active.2 ⟨called_submitted h.loop hcalled, hnotfreed⟩
      obtain ⟨req, hreq⟩ := h.active r hr
      obtain ⟨hsound, howns, hsame⟩ := h.others hr hreq (eioReqFree_transfer r req s.heap)
      have hfree : s.freeReq r = { s with heap := eioReqFree r req s.heap } := by
        simp only [freeReq, hreq.1]
      rw [hfree]
      have hactive : FsState.active { s with loop := loop, heap := eioReqFree r req s.heap }
          = s.active.erase r := by
        rw [h.active_nodup.erase_eq_filter, FsState.active, FsState.active, hledger, hfrees,
          List.filter_filter]
        refine List.filter_congr fun q _ => ?_
        rw [Bool.eq_iff_iff]
        simp [and_comm]
      refine ⟨h.loop.step (.run .free) hloop, h.issued_eq.trans (by rw [hledger]),
        h.calls_eq.trans (by rw [hledger]), hsound, ?_, ?_, ?_, h.made⟩
      · rw [hactive]
        rw [zero_add] at howns
        exact howns
      · rw [hactive]
        intro q hq
        obtain ⟨req', hreq'⟩ := h.active q (List.mem_of_mem_erase hq)
        exact ⟨req', hreq'.congr hq hsame⟩
      · intro q c hq hnot
        simp only at hnot
        rw [hledger] at hnot
        have hqa := h.waiting_active (h.issued_submitted hq) hnot
        have hqr : q ≠ r := fun heq => hnot (heq ▸ hcalled)
        exact (h.stored q c hq hnot).congr ((List.mem_erase_of_ne hqr).2 hqa) hsame
  · cases hstep

theorem Inv.of_reachable {s : FsState ι ν} (hs : Reachable (fsLoop ι v8) s) : s.Inv v8 :=
  hs.invariant _ Inv.init fun _ a _ h hstep =>
    match a with
    | .js _ _ _ _ => h.js hstep
    | .work _ _ => h.work hstep
    | .free => h.free hstep
    | .pass _ => h.pass hstep

end Invariant

end FsState

section Runs

variable {ι ν : Type} [DecidableEq ι] [Fintype ι] {v8 : V8 ν} {s : FsState ι ν}

/-- In no run a block is freed twice, and each request that was not freed owns its blocks. -/
theorem fsLoop_owned (hs : Reachable (fsLoop ι v8) s) :
    s.heap.Sound ∧ s.heap.Owns (ownedBy s.heap s.active) :=
  ⟨(FsState.Inv.of_reachable hs).sound, (FsState.Inv.of_reachable hs).owns⟩

/-- In every run each work that was called made one system call, for a request that a JS call
    issued, and it received what the JS call gave, or the defaults, exactly if the values fit. -/
theorem fs_arguments_iff (hs : Reachable (fsLoop ι v8) s) :
    s.calls.map Prod.fst = s.loop.ledger.called ∧
    (∀ r sys, (r, sys) ∈ s.calls → ∃ call, (r, call) ∈ s.issued) ∧
    ∀ r call sys, (r, call) ∈ s.issued → (r, sys) ∈ s.calls →
      (call.Wants v8 sys ↔ call.Fits v8) := by
  have hinv := FsState.Inv.of_reachable hs
  refine ⟨hinv.calls_eq, fun r sys hr => ?_, fun r call sys hcall hsys =>
    FsCall.wants_iff_fits v8 (hinv.made r call sys hcall hsys)⟩
  have hmem := called_submitted hinv.loop (hinv.made_called hr)
  rw [← hinv.issued_eq] at hmem
  obtain ⟨⟨q, call⟩, hcall, rfl⟩ := List.mem_map.1 hmem
  exact ⟨call, hcall⟩

end Runs

/-- The worker waits, is woken by a JS call, takes its request and works on it. -/
def oneFsCall (call : FsCall JsValue) (result : SysResult) : List (FsAction (Fin 1) JsValue) :=
  [.pass (.work (.enter 0 none)), .js call .zero (fun _ => 0) (some 0),
    .pass (.work (.resume 0 none)), .work 0 result]

/-- A read receives its descriptor, and `fs.open("f", fs.O_RDWR | fs.O_CREAT, 0102)` its mode,
    which is what the flags are. -/
theorem fs_arguments_arrive :
    (∃ s, Reachable (fsLoop (Fin 1) JsValue.v8) s ∧
      (0, .read 3 (some 1) fsReadSize) ∈ s.calls ∧
      FsCall.Wants JsValue.v8 (.read [.integer 3]) (.read 3 (some 1) fsReadSize)) ∧
    ∃ s, Reachable (fsLoop (Fin 1) JsValue.v8) s ∧
      (1, .open (some [102]) 0o102 0o102) ∈ s.calls ∧
      FsCall.Wants JsValue.v8 (.open [.string [102], .integer 0o102, .integer 0o102])
        (.open (some [102]) 0o102 0o102) := by
  constructor
  · have hs := Reachable.init.run (show (fsLoop (Fin 1) JsValue.v8).run
      (fsLoop (Fin 1) JsValue.v8).init (oneFsCall (.read [.integer 3]) (.success 0 []))
        = some _ from rfl)
    refine ⟨_, hs, List.mem_singleton_self _, ?_⟩
    have hfits : FsCall.FitsInt 3 := ⟨by decide, by decide⟩
    exact ((fs_arguments_iff hs).2.2 0 (.read [.integer 3]) _ (List.mem_singleton_self _)
      (List.mem_singleton_self _)).2 hfits
  · have hs := Reachable.init.run (show (fsLoop (Fin 1) JsValue.v8).run
      (fsLoop (Fin 1) JsValue.v8).init (oneFsCall
        (.open [.string [102], .integer 0o102, .integer 0o102]) (.success 3 []))
        = some _ from rfl)
    refine ⟨_, hs, List.mem_singleton_self _, ?_⟩
    have hfits : FsCall.Fits JsValue.v8 (.open [.string [102], .integer 0o102, .integer 0o102]) :=
      ⟨by decide, ⟨by decide, by decide⟩, by decide⟩
    exact ((fs_arguments_iff hs).2.2 1 (.open [.string [102], .integer 0o102, .integer 0o102]) _
      (List.mem_singleton_self _) (List.mem_singleton_self _)).2 hfits

/-- `fs.open("f", fs.O_RDONLY, 0644)` opens with mode 0. -/
theorem fs_open_drops_mode : ∃ s, Reachable (fsLoop (Fin 1) JsValue.v8) s ∧
    ∃ r call sys, (r, call) ∈ s.issued ∧ (r, sys) ∈ s.calls ∧ ¬ call.Wants JsValue.v8 sys := by
  have hs := Reachable.init.run (show (fsLoop (Fin 1) JsValue.v8).run
    (fsLoop (Fin 1) JsValue.v8).init (oneFsCall (.open [.string [102], .integer 0, .integer 0o644])
      (.success 3 [])) = some _ from rfl)
  refine ⟨_, hs, 1, .open [.string [102], .integer 0, .integer 0o644], .open (some [102]) 0 0,
    List.mem_singleton_self _, List.mem_singleton_self _, ?_⟩
  rintro ⟨mode, hmode, hsys⟩
  cases hsys
  exact absurd hmode (by decide)

end Ryze
