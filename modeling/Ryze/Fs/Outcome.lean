import Ryze.Eio.Leaks
import Ryze.Fs.Arguments
import Ryze.Fs.ReadString

set_option autoImplicit false

/-! # How a request ends

What the callback of a request settles its promise with is told by the JS call and by how its system
call ended; for `read` also by what `malloc` left in the buffer. A request that work was not called
on yet is `Fresh`: everything its work function and its callback look at is as the binding left it. -/

namespace Ryze

open CLib Ownership ZeroMemory

namespace FsCall

section Ends

variable {ν : Type}

/-- What the promise is settled with if the system call ends with `result`, `left` being what
    `malloc` left in the buffer of `read`. -/
def outcome (left : Nat → UInt8) (result : SysResult) (call : FsCall ν) : CRun Settled :=
  match result with
  | .failure e => .ok (.reject e.errno (string e.text))
  | .success ret data =>
    match call with
    | .open _ => .ok (.resolveInt ret)
    | .read _ => do
      let value ← match (mallocBytes left fsReadSize).fill data with
        | .bytes block => cstr block
        | _ => throw .read
      return .resolveStr value
    | .close _ => .ok (.resolveInt 0)

/-- The work function and the callback of a call's request. -/
def op : FsCall ν → EioOp
  | .open _ => .open
  | .read _ => .read
  | .close _ => .close

def callback : FsCall ν → FsCallback
  | .open _ => .callback2
  | .read _ => .callback3
  | .close _ => .callback1

/-- The slot `ptr[0]`: a path, a buffer with what `malloc` left in it, or nothing. -/
def Slot (left : Nat → UInt8) (h : Heap Object) (p : Option Nat) : FsCall ν → Prop
  | .open _ => True
  | .read _ => p.bind h.objs = some (mallocBytes left fsReadSize)
  | .close _ => True

/-- The request at `r` is as the binding left it. -/
structure FreshAt (left : Nat → UInt8) (h : Heap Object) (r : Nat) (call : FsCall ν)
    (req : EioReq) : Prop where
  at_eq : RequestAt h r req
  op_eq : req.work = call.op
  callback_eq : req.callback = call.callback
  errnum_eq : req.errnum = 0
  errbuf_eq : req.errbuf = none
  slot : call.Slot left h (req.ptr 0)

def Fresh (left : Nat → UInt8) (h : Heap Object) (r : Nat) (call : FsCall ν) : Prop :=
  ∃ req, call.FreshAt left h r req

/-! ## What the binding leaves -/

variable (v8 : V8 ν) (args : List ν) (old : EioReq) (left : Nat → UInt8) (h : Heap Object)

theorem fsOpen_fresh :
    Fresh left (fsOpen v8 args old h).heap (fsOpen v8 args old h).r (.open args) := by
  have hleaves := fsOpen_leaves v8 args old h
  refine ⟨_, ⟨hleaves.request, hleaves.plain⟩, rfl, rfl, ?_, ?_, trivial⟩
  · simp only [fsOpen]
    split <;> split <;> rfl
  · simp only [fsOpen]
    split <;> split <;> rfl

theorem fsRead_fresh :
    Fresh left (fsRead v8 args old h left).heap (fsRead v8 args old h left).r (.read args) := by
  have hleaves := fsRead_leaves v8 args old left h
  obtain ⟨-, hptr, hbuf⟩ := fsRead_objs v8 args old h left
  refine ⟨_, ⟨hleaves.request, hleaves.plain⟩, rfl, rfl, rfl, rfl, ?_⟩
  rw [Slot, hptr]
  exact hbuf

theorem fsClose_fresh :
    Fresh left (fsClose v8 args old h).heap (fsClose v8 args old h).r (.close args) := by
  have hleaves := fsClose_leaves v8 args old h
  exact ⟨_, ⟨hleaves.request, hleaves.plain⟩, rfl, rfl, rfl, rfl, trivial⟩

theorem issue_fresh (call : FsCall ν) :
    call.Fresh left (call.issue v8 old left h).heap (call.issue v8 old left h).r := by
  cases call with
  | «open» args => exact fsOpen_fresh v8 args old left h
  | read args => exact fsRead_fresh v8 args old left h
  | close args => exact fsClose_fresh v8 args old left h

/-- A binding makes the blocks of its request and no other. -/
theorem issue_accounts (call : FsCall ν) :
    Accounts h 0 (call.issue v8 old left h).heap
      ((call.issue v8 old left h).req.blocks (call.issue v8 old left h).r) := by
  cases call with
  | «open» args =>
      have hblocks : Accounts h 0 (fsOpen v8 args old h).heap ({h.next + 1} + {h.next}) :=
        ((Accounts.alloc h _).seq 0 (Accounts.alloc _ (.request (eioReqAlloc old))) {h.next} rfl
          (add_comm _ _) rfl).trans (Accounts.modify _ _ _ _)
      have hptr : (fsOpen v8 args old h).req.ptr 0 = some h.next := by
        simp only [fsOpen]
        split <;> split <;> rfl
      refine hblocks.congr rfl (blocks_of_slot hptr ?_ ?_ ?_ _).symm <;>
        · simp only [fsOpen]
          split <;> split <;> rfl
  | read args =>
      have hblocks : Accounts h 0 (fsRead v8 args old h left).heap ({h.next + 1} + {h.next}) :=
        ((Accounts.alloc h (.request (eioReqAlloc old))).seq 0 (Accounts.alloc _ _) {h.next} rfl
          (add_comm _ _) rfl).trans (Accounts.modify _ _ _ _)
      obtain ⟨-, hptr, -⟩ := fsRead_objs v8 args old h left
      refine hblocks.congr rfl ?_
      rw [add_comm]
      exact (blocks_of_slot hptr rfl rfl rfl _).symm
  | close args =>
      have hblocks : Accounts h 0 (fsClose v8 args old h).heap {h.next} :=
        (Accounts.alloc h (.request (eioReqAlloc old))).trans (Accounts.modify _ _ _ _)
      have hptr : (fsClose v8 args old h).req.ptr 0 = none := rfl
      exact hblocks.congr rfl (blocks_of_slot hptr rfl rfl rfl _).symm

/-! ## Work and callback -/

/-- A string ends at its first NUL, whatever stands behind the last one. -/
theorem cstr_terminated (s : List UInt8) (rest : List (Option UInt8)) :
    cstr (cells (s ++ [0]) ++ rest) = .ok (string s) := by
  induction s with
  | nil => rfl
  | cons c s ih =>
      rw [List.cons_append, cells_cons, List.cons_append, cstr, ih]
      by_cases hc : c = 0
      · rw [if_pos hc, string, List.takeWhile_cons_of_neg (by simp [hc])]
      · rw [if_neg hc, string, string, List.takeWhile_cons_of_pos (by simp [hc])]
        rfl

/-- A text that `strerror_r` wrote is read back up to its first NUL. -/
theorem v8Str_errText {h : Heap Object} {a : Nat} {e : SysError}
    (ha : h.objs a = some (errText e)) : v8Str h (some a) = .ok (string e.text) := by
  rw [v8Str, Option.bind_some, ha]
  exact cstr_terminated e.text _

/-- A request with an error text is rejected, whatever its callback. -/
theorem call_failure {req : EioReq} {h : Heap Object} {a : Nat} {e : SysError}
    (herrnum : req.errnum = e.errno) (herrbuf : req.errbuf = some a)
    (ha : h.objs a = some (errText e)) : req.call h = .ok (.reject e.errno (string e.text)) := by
  have hsettle : ∀ resolve, settle req h resolve = .ok (.reject e.errno (string e.text)) := by
    intro resolve
    rw [settle, if_pos (by rw [herrnum]; exact e.errno_ne), herrbuf, v8Str_errText ha, herrnum]
    rfl
  rw [EioReq.call]
  cases req.callback <;> exact hsettle _

/-- Without an error the callback resolves. -/
theorem settle_success {req : EioReq} (h : Heap Object) (herrnum : req.errnum = 0)
    (resolve : CRun Settled) : settle req h resolve = resolve := by
  rw [settle, if_neg (not_not.2 herrnum)]

/-- The callback looks at no block but the request's own. -/
theorem call_congr {req : EioReq} {h h' : Heap Object} {r : Nat}
    (hsame : ∀ a ∈ req.blocks r, h'.objs a = h.objs a) : req.call h' = req.call h := by
  have hslot : ∀ p, own p ≤ req.blocks r → v8Str h' p = v8Str h p := by
    intro p hp
    cases p with
    | none => rfl
    | some a =>
        rw [v8Str, v8Str, Option.bind_some, Option.bind_some,
          hsame a (Multiset.mem_of_le hp (Multiset.mem_singleton_self a))]
  have herrbuf := hslot req.errbuf
    ((Multiset.le_add_left _ req.slots).trans (Multiset.le_add_right _ _))
  obtain ⟨rest, hrest⟩ := EioState.blocks_eq_slot req 0 r
  have hptr := hslot (req.ptr 0) (by rw [hrest]; exact Multiset.le_add_right _ _)
  simp only [EioReq.call, eioReqFsCallback1, eioReqFsCallback2, eioReqFsCallback3, settle, herrbuf,
    hptr]

/-- Work on a fresh request leaves it with the end its call has, whatever block it is written back
    to. -/
theorem work_outcome {left : Nat → UInt8} {h : Heap Object} {r : Nat} {call : FsCall ν}
    {req : EioReq} {others : Multiset Nat} (hfresh : call.FreshAt left h r req)
    (hsound : h.Sound) (howns : h.Owns (req.blocks r + others)) {result : SysResult}
    {t : EioState} (hrun : EioState.work result ⟨req, h, []⟩ = .ok t) :
    t.req.call (t.heap.modify r fun _ => .request t.req) = call.outcome left result := by
  -- what the request owns is live, so it is older than the error text
  have hold : ∀ a ∈ req.blocks r, a ≠ h.next := fun a ha heq =>
    Nat.lt_irrefl _ (heq ▸ hsound.live_lt a (howns.live a (Multiset.mem_add.2 (Or.inl ha))))
  have hr : h.next ≠ r := (hold r (by simp [EioReq.blocks])).symm
  have hptr : req.ptr 0 ≠ some h.next := fun heq => hold _ (EioState.mem_blocks heq) rfl
  rw [EioState.work, hfresh.op_eq] at hrun
  cases result with
  | failure e =>
      have hfailed : t.req.errnum = e.errno ∧ t.req.errbuf = some h.next ∧
          t.heap.objs h.next = some (errText e) := by
        cases call with
        | close args =>
            cases hrun
            exact ⟨rfl, rfl, Heap.alloc_self h _⟩
        | «open» args | read args =>
            cases hrun
            refine ⟨rfl, rfl, ?_⟩
            exact (objs_free_of_ne hptr).trans (Heap.alloc_self h _)
      obtain ⟨herrnum, herrbuf, htext⟩ := hfailed
      exact call_failure herrnum herrbuf (by rw [Heap.modify_of_ne _ _ hr, htext])
  | success ret data =>
      cases call with
      | «open» args =>
          cases hrun
          obtain ⟨hcallback, herrnum⟩ := And.intro hfresh.callback_eq hfresh.errnum_eq
          simp only [EioReq.call, eioOpen, EioState.onError, EioState.setRet, EioState.trap,
            EioState.free, EioState.setPtr, hcallback, FsCall.callback, eioReqFsCallback2]
          exact settle_success _ herrnum _
      | close args =>
          cases hrun
          obtain ⟨hcallback, herrnum⟩ := And.intro hfresh.callback_eq hfresh.errnum_eq
          simp only [EioReq.call, eioClose, EioState.withoutSlot, EioState.onError, EioState.trap,
            hcallback, FsCall.callback, eioReqFsCallback1]
          refine (settle_success _ herrnum _).trans ?_
          rw [herrnum]
          rfl
      | read args =>
          cases hrun
          obtain ⟨hcallback, herrnum⟩ := And.intro hfresh.callback_eq hfresh.errnum_eq
          obtain ⟨a, hslot, hbuf⟩ := Option.bind_eq_some_iff.1 hfresh.slot
          have har : a ≠ r := fun heq => by
            rw [heq, hfresh.at_eq.1, mallocBytes] at hbuf
            cases hbuf
          simp only [EioReq.call, eioRead, EioState.onError, EioState.setRet, EioState.trap,
            EioState.fill, hcallback, FsCall.callback, eioReqFsCallback3]
          refine (settle_success _ herrnum _).trans ?_
          rw [hslot, v8Str, Option.bind_some, Heap.modify_of_ne _ _ har, fillAt, Heap.modify_self,
            hbuf]
          rfl

end Ends

end FsCall

end Ryze
