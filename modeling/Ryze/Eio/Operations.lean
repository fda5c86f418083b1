import Ryze.Eio.Request

set_option autoImplicit false

/-! # The work functions of `eio.c`

Each function makes one system call with what it finds in `args` and behind `ptr`, and then settles
the slots of `ptr`. Most belong to a family: no slot, a path or two that are freed, a buffer that is
kept unless the call failed. `readv` and `writev` walk over an array, and are the ones that can stop
on the way. -/

namespace Ryze

open CLib Ownership

namespace EioState

/-! ## The families -/

/-- No slot is used. -/
def withoutSlot (call : Syscall) (result : SysResult) (s : EioState) : EioState :=
  (s.trap call).onError result id

/-- `ptr[0]` is freed in any case. -/
def withSlot (call : Syscall) (result : SysResult) (s : EioState) : EioState :=
  let s := (s.trap call).onError result id
  let s := s.free 0
  s.setPtr 0 none

/-- `ptr[0]` and `ptr[1]` are freed in any case. -/
def withTwoSlots (call : Syscall) (result : SysResult) (s : EioState) : EioState :=
  let s := (s.trap call).onError result id
  let s := s.free 0
  let s := s.free 1
  let s := s.setPtr 0 none
  s.setPtr 1 none

/-- The handling of a failed call that gives up the buffer in a slot. -/
def giveUp (i : Fin 3) (s : EioState) : EioState := (s.free i).setPtr i none

end EioState

section Operations

variable (result : SysResult) (s : EioState)

def eioAccess : EioState :=
  s.withSlot (.access (s.path 0) (s.req.args 0).amode) result

def eioChmod : EioState :=
  s.withSlot (.chmod (s.path 0) (s.req.args 0).mode) result

def eioChown : EioState :=
  s.withSlot (.chown (s.path 0) (s.req.args 0).owner (s.req.args 1).group) result

def eioClose : EioState :=
  s.withoutSlot (.close (s.req.args 0).fd) result

def eioFchmod : EioState :=
  s.withoutSlot (.fchmod (s.req.args 0).fd (s.req.args 1).mode) result

def eioFchown : EioState :=
  s.withoutSlot (.fchown (s.req.args 0).fd (s.req.args 1).owner (s.req.args 2).group) result

def eioFdatasync : EioState :=
  s.withoutSlot (.fdatasync (s.req.args 0).fd) result

def eioFstat : EioState :=
  let s := (s.trap (.fstat (s.req.args 0).fd (s.req.ptr 0))).fill result 0
  s.onError result (.giveUp 0)

def eioFsync : EioState :=
  s.withoutSlot (.fsync (s.req.args 0).fd) result

def eioFtruncate : EioState :=
  s.withoutSlot (.ftruncate (s.req.args 0).fd (s.req.args 1).len) result

def eioFutimes : EioState :=
  s.withSlot (.futimes (s.req.args 0).fd (s.req.ptr 0)) result

def eioLchown : EioState :=
  s.withSlot (.lchown (s.path 0) (s.req.args 0).owner (s.req.args 1).group) result

def eioLutimes : EioState :=
  s.withTwoSlots (.lutimes (s.path 0) (s.req.ptr 1)) result

def eioLink : EioState :=
  s.withTwoSlots (.link (s.path 0) (s.path 1)) result

/-- The buffer in `ptr[1]` moves to `ptr[0]`. -/
def eioLstat : EioState :=
  let s := (s.trap (.lstat (s.path 0) (s.req.ptr 1))).fill result 1
  let s := s.onError result (.giveUp 1)
  let s := s.free 0
  let s := s.setPtr 0 (s.req.ptr 1)
  s.setPtr 1 none

def eioMkdir : EioState :=
  s.withSlot (.mkdir (s.path 0) (s.req.args 0).mode) result

/-- `mkdtemp` writes the name it has made to its argument. -/
def eioMkdtemp : EioState :=
  let s := (s.trap (.mkdtemp (s.path 0))).fill result 0
  s.onError result (.giveUp 0)

def eioOpen : EioState :=
  let s := s.trap (.open (s.path 0) (s.req.args 0).flag (s.req.args 0).mode)
  let s := s.setRet result.ret
  let s := s.onError result id
  let s := s.free 0
  s.setPtr 0 none

def eioOpendir : EioState :=
  let s := s.trap (.opendir (s.path 0))
  match result with
  | .success _ _ =>
    let ret := s.heap.next
    let s := { s with heap := s.heap.alloc .dir }
    let s := s.free 0
    s.setPtr 0 (some ret)
  | .failure e =>
    let s := s.seterr e
    let s := s.free 0
    s.setPtr 0 none

def eioRead : EioState :=
  let s := s.trap (.read (s.req.args 0).fd (s.req.ptr 0) (s.req.args 1).size)
  let s := (s.setRet result.ret).fill result 0
  s.onError result (.giveUp 0)

def eioReadlink : EioState :=
  let s := s.trap (.readlink (s.path 0) (s.req.ptr 1) (s.req.args 0).size)
  let s := (s.setRet result.ret).fill result 1
  let s := s.onError result (.giveUp 1)
  let s := s.free 0
  s.setPtr 0 none

/-- Without a buffer in `ptr[1]` `realpath` allocates one and returns it, and nobody takes it. -/
def eioRealpath : EioState :=
  let s := (s.trap (.realpath (s.path 0) (s.req.ptr 1))).fill result 1
  let s :=
    match result, s.req.ptr 1 with
    | .success _ data, none => { s with heap := s.heap.alloc (.bytes (cells data)) }
    | _, _ => s
  let s := s.onError result (.giveUp 1)
  let s := s.free 0
  s.setPtr 0 none

def eioRename : EioState :=
  s.withTwoSlots (.rename (s.path 0) (s.path 1)) result

def eioRmdir : EioState :=
  s.withSlot (.rmdir (s.path 0)) result

def eioStat : EioState :=
  let s := (s.trap (.stat (s.path 0) (s.req.ptr 1))).fill result 1
  let s := s.onError result (.giveUp 1)
  let s := s.free 0
  s.setPtr 0 none

def eioSymlink : EioState :=
  s.withTwoSlots (.symlink (s.path 0) (s.path 1)) result

def eioTruncate : EioState :=
  s.withSlot (.truncate (s.path 0) (s.req.args 0).len) result

def eioUnlink : EioState :=
  s.withSlot (.unlink (s.path 0)) result

def eioUtimes : EioState :=
  s.withTwoSlots (.utimes (s.path 0) (s.req.ptr 1)) result

def eioWrite : EioState :=
  let s := s.trap (.write (s.req.args 0).fd (s.req.ptr 0) (s.req.args 1).size)
  let s := s.setRet result.ret
  s.onError result (.giveUp 0)

end Operations

/-! ## `readv` and `writev` -/

/-- A work function's run: it returns, or it stops on the way. -/
abbrev EioRun := Except (Fault × EioState) EioState

namespace EioState

/-- The array behind `ptr[0]`. -/
def iovecs (s : EioState) : List Iovec :=
  match (s.req.ptr 0).bind s.heap.objs with
  | some (.iovecs entries) => entries
  | _ => []

/-- `readv` fills the buffers one after another. -/
def scatter : List Iovec → List UInt8 → Heap Object → Heap Object
  | [], _, h => h
  | v :: entries, data, h =>
    scatter entries (data.drop v.len) (fillAt h (data.take v.len) v.base)

/-- The loop `free(((struct iovec *) req->ptr[0])[i].iov_base)` with `left` rounds to go. -/
def freeBases : (left i : Nat) → EioState → EioRun
  | 0, _, s => .ok s
  | left + 1, i, s =>
    match s.iovecs[i]? with
    | none => .error (.read, s)
    | some v => freeBases left (i + 1) { s with heap := s.heap.free v.base }

/-- What `readv` and `writev` do with a failed call. -/
def giveUpVector (e : SysError) (s : EioState) : EioRun := do
  let s := s.seterr e
  let s ← s.freeBases (s.req.args 1).count.toNat 0
  return s.giveUp 0

end EioState

def eioReadv (result : SysResult) (s : EioState) : EioRun :=
  let s := s.trap (.readv (s.req.args 0).fd (s.req.ptr 0) (s.req.args 1).count)
  let s := s.setRet result.ret
  match result with
  | .success _ data =>
    let entries := s.iovecs.take (s.req.args 1).count.toNat
    .ok { s with heap := EioState.scatter entries data s.heap }
  | .failure e => s.giveUpVector e

def eioWritev (result : SysResult) (s : EioState) : EioRun :=
  let s := s.trap (.writev (s.req.args 0).fd (s.req.ptr 0) (s.req.args 1).count)
  let s := s.setRet result.ret
  match result with
  | .success _ _ => .ok s
  | .failure e => s.giveUpVector e

/-- The function a pointer in `work` points to. -/
def EioOp.apply (result : SysResult) (s : EioState) : EioOp → EioRun
  | .access => .ok (eioAccess result s)
  | .chmod => .ok (eioChmod result s)
  | .chown => .ok (eioChown result s)
  | .close => .ok (eioClose result s)
  | .fchmod => .ok (eioFchmod result s)
  | .fchown => .ok (eioFchown result s)
  | .fdatasync => .ok (eioFdatasync result s)
  | .fstat => .ok (eioFstat result s)
  | .fsync => .ok (eioFsync result s)
  | .ftruncate => .ok (eioFtruncate result s)
  | .futimes => .ok (eioFutimes result s)
  | .lchown => .ok (eioLchown result s)
  | .lutimes => .ok (eioLutimes result s)
  | .link => .ok (eioLink result s)
  | .lstat => .ok (eioLstat result s)
  | .mkdir => .ok (eioMkdir result s)
  | .mkdtemp => .ok (eioMkdtemp result s)
  | .open => .ok (eioOpen result s)
  | .opendir => .ok (eioOpendir result s)
  | .read => .ok (eioRead result s)
  | .readlink => .ok (eioReadlink result s)
  | .readv => eioReadv result s
  | .realpath => .ok (eioRealpath result s)
  | .rename => .ok (eioRename result s)
  | .rmdir => .ok (eioRmdir result s)
  | .stat => .ok (eioStat result s)
  | .symlink => .ok (eioSymlink result s)
  | .truncate => .ok (eioTruncate result s)
  | .unlink => .ok (eioUnlink result s)
  | .utimes => .ok (eioUtimes result s)
  | .write => .ok (eioWrite result s)
  | .writev => eioWritev result s

/-- `req->work(req)` -/
def EioState.work (result : SysResult) (s : EioState) : EioRun := s.req.work.apply result s

end Ryze
