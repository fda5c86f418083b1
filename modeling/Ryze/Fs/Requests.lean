import Ryze.Eio.Ownership
import Ryze.Fs.Bindings
import Ryze.Lib.ZeroMemory
import Mathlib.Data.UInt

set_option autoImplicit false

/-! # What a call stores and what its work function finds

The two sides of the `args` and `ptr` of a request. Numbers go through as 32 bits and a path up to
its first NUL; and `eio_open` takes the mode from the slot of the flags, where `fs_open` did not put
it. -/

namespace Ryze

open CLib Ownership ZeroMemory

/-! ## What a call wants, and what its system call receives -/

/-- The functions of `fs` and the arguments they are given. -/
inductive FsCall (ν : Type)
  | «open» (args : List ν)
  | read (args : List ν)
  | close (args : List ν)
deriving DecidableEq, Repr

section Calls

variable {ν : Type} (v8 : V8 ν)

/-- The flags of `fs.open`, or their default. -/
def V8.openFlag (args : List ν) : Int :=
  if args.length ≥ 2 then v8.integerValue (v8.arg args 1) else oRdonly

/-- The mode of `fs.open`, or its default. -/
def V8.openMode (args : List ν) : Int :=
  if args.length ≥ 3 then v8.integerValue (v8.arg args 2) else defaultMode

namespace FsCall

/-- The system call receives the values the JS call gave, or the defaults. -/
def Wants : FsCall ν → Syscall → Prop
  | .open args, sys => ∃ mode : Nat, (mode : Int) = v8.openMode args ∧
      sys = .open (some (v8.utf8Value (v8.arg args 0))) (v8.openFlag args) mode
  | .read args, sys => ∃ buf, sys = .read (v8.integerValue (v8.arg args 0)) buf fsReadSize
  | .close args, sys => sys = .close (v8.integerValue (v8.arg args 0))

/-- What it receives. -/
def Makes : FsCall ν → Syscall → Prop
  | .open args, sys => sys = .open (some (string (v8.utf8Value (v8.arg args 0))))
      (toInt32 (v8.openFlag args)) (v8.openFlag args % 2 ^ 32).toNat
  | .read args, sys => ∃ buf, sys = .read (toInt32 (v8.integerValue (v8.arg args 0))) buf fsReadSize
  | .close args, sys => sys = .close (toInt32 (v8.integerValue (v8.arg args 0)))

/-- The value is an `int`'s. -/
def FitsInt (n : Int) : Prop := -2 ^ 31 ≤ n ∧ n < 2 ^ 31

/-- The call's values arrive: numbers are `int`s, the path has no NUL, and the mode is what the bits
    of the flags read as. -/
def Fits : FsCall ν → Prop
  | .open args => 0 ∉ v8.utf8Value (v8.arg args 0) ∧ FitsInt (v8.openFlag args) ∧
      v8.openMode args = v8.openFlag args % 2 ^ 32
  | .read args => FitsInt (v8.integerValue (v8.arg args 0))
  | .close args => FitsInt (v8.integerValue (v8.arg args 0))

theorem toInt32_eq_iff (n : Int) : toInt32 n = n ↔ FitsInt n := by
  obtain ⟨k, hk, hlo, hhi⟩ := toInt32_spec n
  unfold FitsInt
  constructor
  · intro h
    omega
  · intro h
    omega

theorem string_eq_iff (s : List UInt8) : string s = s ↔ 0 ∉ s := by
  constructor
  · intro h hmem
    rw [← h] at hmem
    have hne := List.mem_takeWhile_imp hmem
    simp at hne
  · exact string_of_notMem

/-- What arrives is what is wanted exactly for the calls that fit. -/
theorem wants_iff_fits {call : FsCall ν} {sys : Syscall} (h : call.Makes v8 sys) :
    call.Wants v8 sys ↔ call.Fits v8 := by
  cases call with
  | «open» args =>
      simp only [Makes] at h
      subst h
      simp only [Wants, Fits, Syscall.open.injEq, Option.some.injEq]
      have hmod : ((v8.openFlag args % 2 ^ 32).toNat : Int) = v8.openFlag args % 2 ^ 32 :=
        Int.toNat_of_nonneg (Int.emod_nonneg _ (by decide))
      constructor
      · rintro ⟨mode, hmode, hpath, hflag, rfl⟩
        exact ⟨(string_eq_iff _).1 hpath, (toInt32_eq_iff _).1 hflag, by rw [← hmode, hmod]⟩
      · rintro ⟨hpath, hflag, hmode⟩
        exact ⟨_, by rw [hmod, hmode], (string_eq_iff _).2 hpath, (toInt32_eq_iff _).2 hflag, rfl⟩
  | read args =>
      obtain ⟨buf, rfl⟩ := h
      simp only [Wants, Fits, Syscall.read.injEq]
      constructor
      · rintro ⟨_, hfd, _⟩
        exact (toInt32_eq_iff _).1 hfd
      · intro hfd
        exact ⟨buf, (toInt32_eq_iff _).2 hfd, rfl, trivial⟩
  | close args =>
      simp only [Makes] at h
      subst h
      simp only [Wants, Fits, Syscall.close.injEq]
      exact toInt32_eq_iff _

/-! ## Storing the arguments -/

/-- The binding's part of a call; `old` and `left` are what `malloc` left in its blocks. -/
def issue (old : EioReq) (left : Nat → UInt8) (h : Heap Object) : FsCall ν → Issued
  | .open args => fsOpen v8 args old h
  | .read args => fsRead v8 args old h left
  | .close args => fsClose v8 args old h

/-- The request at `r` holds the arguments of the call. -/
def Stored (h : Heap Object) (r : Nat) : FsCall ν → Prop
  | .open args => ∃ req path, h.objs r = some (.request req) ∧ req.work = .open ∧
      req.ptr 0 = some path ∧
      h.objs path = some (.bytes (cells (v8.utf8Value (v8.arg args 0) ++ [0]))) ∧
      (req.args 0).lo = BitVec.ofInt 32 (v8.openFlag args)
  | .read args => ∃ req, h.objs r = some (.request req) ∧ req.work = .read ∧
      (req.args 0).lo = BitVec.ofInt 32 (v8.integerValue (v8.arg args 0)) ∧
      (req.args 1).size = fsReadSize
  | .close args => ∃ req, h.objs r = some (.request req) ∧ req.work = .close ∧
      (req.args 0).lo = BitVec.ofInt 32 (v8.integerValue (v8.arg args 0))

/-! ### What a work function finds -/

theorem int_of_lo {a : EioWorkArg} {v : Int} (h : a.lo = BitVec.ofInt 32 v) :
    a.int = toInt32 v := by
  rw [EioWorkArg.int, h, BitVec.toInt_ofInt]
  rfl

theorem unsigned_of_lo {a : EioWorkArg} {v : Int} (h : a.lo = BitVec.ofInt 32 v) :
    a.unsigned = (v % 2 ^ 32).toNat := by
  rw [EioWorkArg.unsigned, h, BitVec.toNat_ofInt]
  rfl

/-- A string ends at its first NUL, the one behind it if there is no other. -/
theorem cstr_string (s : List UInt8) : cstr (cells (s ++ [0])) = .ok (string s) := by
  induction s with
  | nil => rfl
  | cons c s ih =>
      rw [List.cons_append, cells_cons, cstr, ih]
      by_cases hc : c = 0
      · rw [if_pos hc, string, List.takeWhile_cons_of_neg (by simp [hc])]
      · rw [if_neg hc, string, string, List.takeWhile_cons_of_pos (by simp [hc])]
        rfl

theorem pathAt_string {h : Heap Object} {p : Nat} {s : List UInt8}
    (hp : h.objs p = some (.bytes (cells (s ++ [0])))) : pathAt h (some p) = some (string s) := by
  rw [pathAt, Option.bind_some, hp]
  simp only
  rw [cstr_string]
  rfl

/-- The work function of a request that holds its arguments makes one system call with them. -/
theorem Stored.work {call : FsCall ν} {h : Heap Object} {r : Nat} (hstored : call.Stored v8 h r) :
    ∃ req, h.objs r = some (.request req) ∧ req.work.isVector = false ∧
      ∀ result s', EioState.work result ⟨req, h, []⟩ = .ok s' →
        ∃ sys, s'.calls = [sys] ∧ call.Makes v8 sys := by
  cases call with
  | «open» args =>
      obtain ⟨req, path, hreq, hwork, hptr, hpath, hlo⟩ := hstored
      refine ⟨req, hreq, by rw [hwork]; rfl, fun result s' hrun => ?_⟩
      rw [EioState.work, hwork] at hrun
      cases hrun
      refine ⟨.open (pathAt h (req.ptr 0)) (req.args 0).int (req.args 0).unsigned, ?_, ?_⟩
      · cases result <;> rfl
      · rw [hptr, pathAt_string hpath, int_of_lo hlo, unsigned_of_lo hlo, Makes]
  | read args =>
      obtain ⟨req, hreq, hwork, hlo, hsize⟩ := hstored
      refine ⟨req, hreq, by rw [hwork]; rfl, fun result s' hrun => ?_⟩
      rw [EioState.work, hwork] at hrun
      cases hrun
      refine ⟨.read (req.args 0).int (req.ptr 0) (req.args 1).size, ?_, req.ptr 0, ?_⟩
      · cases result <;> rfl
      · rw [int_of_lo hlo, hsize]
  | close args =>
      obtain ⟨req, hreq, hwork, hlo⟩ := hstored
      refine ⟨req, hreq, by rw [hwork]; rfl, fun result s' hrun => ?_⟩
      rw [EioState.work, hwork] at hrun
      cases hrun
      refine ⟨.close (req.args 0).int, ?_, ?_⟩
      · cases result <;> rfl
      · rw [int_of_lo hlo, Makes]

/-! ### What a binding leaves -/

/-- A request in the heap that is not for `readv` or `writev`, with what it holds and owns. -/
structure Leaves (call : FsCall ν) (h : Heap Object) (x : Issued) : Prop where
  request : x.heap.objs x.r = some (.request x.req)
  plain : x.req.work.isVector = false
  stored : call.Stored v8 x.heap x.r
  transfer : Transfer h 0 x.heap (x.req.blocks x.r)

theorem blocks_of_slot {req : EioReq} {p : Option Nat} (h0 : req.ptr 0 = p) (h1 : req.ptr 1 = none)
    (h2 : req.ptr 2 = none) (he : req.errbuf = none) (r : Nat) : req.blocks r = {r} + own p := by
  simp only [EioReq.blocks, EioReq.slots, h0, h1, h2, he, own_none, add_zero]
  exact add_comm _ _

variable (args : List ν) (old : EioReq) (left : Nat → UInt8) (h : Heap Object)

theorem fsOpen_leaves : Leaves v8 (.open args) h (fsOpen v8 args old h) := by
  have hr : (fsOpen v8 args old h).r = h.next + 1 := rfl
  have hptr : (fsOpen v8 args old h).req.ptr 0 = some h.next := by
    simp only [fsOpen]
    split <;> split <;> rfl
  have hlo : ((fsOpen v8 args old h).req.args 0).lo = BitVec.ofInt 32 (v8.openFlag args) := by
    simp only [fsOpen, V8.openFlag]
    split <;> split <;> rfl
  have hrequest : (fsOpen v8 args old h).heap.objs (fsOpen v8 args old h).r
      = some (.request (fsOpen v8 args old h).req) :=
    issue_request (o := .request (eioReqAlloc old)) _ _ _
      (Heap.alloc_self (h.alloc (.bytes (cells (v8.utf8Value (v8.arg args 0) ++ [0])))) _)
  have hpath : (fsOpen v8 args old h).heap.objs h.next
      = some (.bytes (cells (v8.utf8Value (v8.arg args 0) ++ [0]))) := by
    refine (Heap.modify_of_ne _ _ (Nat.ne_of_lt (Nat.lt_succ_self _))).trans ?_
    exact (Heap.alloc_of_ne _ _ (Nat.ne_of_lt (Nat.lt_succ_self _))).trans (Heap.alloc_self h _)
  refine ⟨hrequest, rfl, ⟨_, _, hrequest, rfl, hptr, hpath, hlo⟩, ?_⟩
  rw [blocks_of_slot hptr (by simp only [fsOpen]; split <;> split <;> rfl)
    (by simp only [fsOpen]; split <;> split <;> rfl)
    (by simp only [fsOpen]; split <;> split <;> rfl)]
  exact (Transfer.alloc h _).seq 0 ((Transfer.alloc _ _).trans (Transfer.modify _ _ _)) {h.next}
    rfl (add_comm _ _) rfl

theorem fsRead_leaves : Leaves v8 (.read args) h (fsRead v8 args old h left) := by
  obtain ⟨hrequest, hptr, -⟩ := fsRead_objs v8 args old h left
  refine ⟨hrequest, rfl, ⟨_, hrequest, rfl, rfl, setSize_fsReadSize⟩, ?_⟩
  have hblocks : Transfer h 0 _ ({h.next + 1} + {h.next}) :=
    (Transfer.alloc h (.request (eioReqAlloc old))).seq 0
      (Transfer.alloc _ (mallocBytes left (EioWorkArg.setSize fsReadSize).size)) {h.next} rfl
      (add_comm _ _) rfl
  rw [blocks_of_slot hptr rfl rfl rfl]
  exact (hblocks.congr rfl (add_comm _ _)).trans
    ((Transfer.modify _ h.next _).frame {h.next + 1})

theorem fsClose_leaves : Leaves v8 (.close args) h (fsClose v8 args old h) := by
  have hrequest : (fsClose v8 args old h).heap.objs (fsClose v8 args old h).r
      = some (.request (fsClose v8 args old h).req) :=
    issue_request (o := .request (eioReqAlloc old)) _ _ _ (Heap.alloc_self h _)
  refine ⟨hrequest, rfl, ⟨_, hrequest, rfl, rfl⟩, ?_⟩
  rw [blocks_of_slot rfl rfl rfl rfl]
  exact (Transfer.alloc h _).trans (Transfer.modify _ _ _)

theorem issue_leaves (call : FsCall ν) : Leaves v8 call h (call.issue v8 old left h) := by
  cases call with
  | «open» args => exact fsOpen_leaves v8 args old h
  | read args => exact fsRead_leaves v8 args old left h
  | close args => exact fsClose_leaves v8 args old h

end FsCall

end Calls

end Ryze
