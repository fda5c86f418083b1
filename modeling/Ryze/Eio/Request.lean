import Ryze.Lib.CBlock
import Ryze.Lib.Ownership
import Mathlib.Algebra.GroupWithZero.Nat

set_option autoImplicit false

/-! # `struct eio_req_t`

The request of `xxx/eio/eio.h` with its macros. A block of the heap is a run of bytes, an array of
`struct iovec`, what `opendir` returns, or a request; pointers are addresses. A work function is
followed on the request it was called with, the heap, and the system calls it has made; what a
system call returns is given to it. The `resolver` and the list links are left out. -/

namespace Ryze

open CLib Ownership

/-- A request has three arguments and three slots, numbered from 0. -/
instance neZeroSlots : NeZero 3 := ⟨by decide⟩

/-! ## Arguments -/

/-- `union eio_work_arg`: two words of memory, of which an `int` or an unsigned member is the lower
    one. -/
structure EioWorkArg where
  lo : BitVec 32
  hi : BitVec 32
deriving DecidableEq, Repr

namespace EioWorkArg

/-- The members `fd`, `amode`, `flag` and `count`, which are `int`s. -/
def int (a : EioWorkArg) : Int := a.lo.toInt

/-- The members `mode`, `owner` and `group`, which are unsigned. -/
def unsigned (a : EioWorkArg) : Nat := a.lo.toNat

def fd (a : EioWorkArg) : Int := a.int
def amode (a : EioWorkArg) : Int := a.int
def flag (a : EioWorkArg) : Int := a.int
def count (a : EioWorkArg) : Int := a.int
def mode (a : EioWorkArg) : Nat := a.unsigned
def owner (a : EioWorkArg) : Nat := a.unsigned
def group (a : EioWorkArg) : Nat := a.unsigned
def len (a : EioWorkArg) : Int := (a.hi ++ a.lo).toInt
def size (a : EioWorkArg) : Nat := (a.hi ++ a.lo).toNat

/-- A 32-bit member is set; the other word stays as it is. -/
def setWord (a : EioWorkArg) (v : Int) : EioWorkArg := { a with lo := BitVec.ofInt 32 v }

def setFd (a : EioWorkArg) (v : Int) : EioWorkArg := a.setWord v
def setFlag (a : EioWorkArg) (v : Int) : EioWorkArg := a.setWord v
def setMode (a : EioWorkArg) (v : Int) : EioWorkArg := a.setWord v

/-- A 64-bit member is set. -/
def setSize (v : Int) : EioWorkArg :=
  ⟨(BitVec.ofInt 64 v).extractLsb' 0 32, (BitVec.ofInt 64 v).extractLsb' 32 32⟩

end EioWorkArg

/-- The functions of `eio.c`, to one of which `work` points. -/
inductive EioOp
  | access | chmod | chown | close | fchmod | fchown | fdatasync | fstat | fsync | ftruncate
  | futimes | lchown | lutimes | link | lstat | mkdir | mkdtemp | «open» | opendir | read
  | readlink | readv | realpath | rename | rmdir | stat | symlink | truncate | unlink | utimes
  | write | writev
deriving DecidableEq, Repr

/-- `ptr[0]` is an array of `struct iovec`. -/
def EioOp.isVector : EioOp → Bool
  | .readv | .writev => true
  | _ => false

/-- The functions of `fs.cc` to which `callback` points. -/
inductive FsCallback
  | callback1 | callback2 | callback3
deriving DecidableEq, Repr

structure EioReq where
  args : Fin 3 → EioWorkArg
  /-- what was stored in `ret.fd` or `ret.size`; nobody reads one after the other was stored -/
  ret : Int
  ptr : Fin 3 → Option Nat
  errnum : Int
  errbuf : Option Nat
  work : EioOp
  callback : FsCallback

/-! ## Memory -/

/-- `struct iovec` -/
structure Iovec where
  base : Option Nat
  len : Nat
deriving DecidableEq, Repr

inductive Object
  | bytes (cells : List (Option UInt8))
  | iovecs (entries : List Iovec)
  /-- what `opendir` returns -/
  | dir
  | request (req : EioReq)

/-- The bytes are written to the front of the block, as far as there is room. -/
def Object.fill (data : List UInt8) : Object → Object
  | .bytes block => .bytes ((cells data ++ block.drop data.length).take block.length)
  | o => o

/-- A string a system call is given: `none` for a pointer to no string. -/
def pathAt (h : Heap Object) (p : Option Nat) : Option (List UInt8) :=
  match p.bind h.objs with
  | some (.bytes block) => (cstr block).toOption
  | _ => none

/-- The bytes are written behind a pointer. -/
def fillAt (h : Heap Object) (data : List UInt8) : Option Nat → Heap Object
  | none => h
  | some a => h.modify a (Object.fill data)

/-! ## System calls -/

/-- A system call with the arguments it receives: strings and numbers as they are, buffers as
    pointers. -/
inductive Syscall
  | access (path : Option (List UInt8)) (amode : Int)
  | chmod (path : Option (List UInt8)) (mode : Nat)
  | chown (path : Option (List UInt8)) (owner group : Nat)
  | close (fd : Int)
  | fchmod (fd : Int) (mode : Nat)
  | fchown (fd : Int) (owner group : Nat)
  | fdatasync (fd : Int)
  | fstat (fd : Int) (buf : Option Nat)
  | fsync (fd : Int)
  | ftruncate (fd : Int) (len : Int)
  | futimes (fd : Int) (times : Option Nat)
  | lchown (path : Option (List UInt8)) (owner group : Nat)
  | lutimes (path : Option (List UInt8)) (times : Option Nat)
  | link (oldPath newPath : Option (List UInt8))
  | lstat (path : Option (List UInt8)) (buf : Option Nat)
  | mkdir (path : Option (List UInt8)) (mode : Nat)
  | mkdtemp (template : Option (List UInt8))
  | «open» (path : Option (List UInt8)) (flag : Int) (mode : Nat)
  | opendir (path : Option (List UInt8))
  | read (fd : Int) (buf : Option Nat) (size : Nat)
  | readlink (path : Option (List UInt8)) (buf : Option Nat) (size : Nat)
  | readv (fd : Int) (iov : Option Nat) (count : Int)
  | realpath (path : Option (List UInt8)) (resolved : Option Nat)
  | rename (oldPath newPath : Option (List UInt8))
  | rmdir (path : Option (List UInt8))
  | stat (path : Option (List UInt8)) (buf : Option Nat)
  | symlink (target path : Option (List UInt8))
  | truncate (path : Option (List UInt8)) (len : Int)
  | unlink (path : Option (List UInt8))
  | utimes (path : Option (List UInt8)) (times : Option Nat)
  | write (fd : Int) (buf : Option Nat) (size : Nat)
  | writev (fd : Int) (iov : Option Nat) (count : Int)
deriving DecidableEq, Repr

/-- `EIO_REQ_ERRBUF_SIZE` -/
def eioReqErrbufSize : Nat := 128

/-- `errno` after a system call that failed, and the text `strerror_r` has for it. -/
structure SysError where
  errno : Int
  text : List UInt8
  errno_ne : errno ≠ 0
  text_lt : text.length < eioReqErrbufSize

/-- How a system call ends: with the number it returns and the bytes it writes to the buffer it was
    given, or with -1 (or NULL) and `errno`. -/
inductive SysResult
  | success (ret : Nat) (data : List UInt8)
  | failure (e : SysError)

/-- What the call returns. -/
def SysResult.ret : SysResult → Int
  | .success ret _ => ret
  | .failure _ => -1

/-! ## The macros -/

/-- A request that a work function was called with, the heap, and the system calls it has made. -/
structure EioState where
  req : EioReq
  heap : Heap Object
  calls : List Syscall

/-- `EIO_REQ_ALLOC()`, `old` being what `malloc` left in the block. -/
def eioReqAlloc (old : EioReq) : EioReq :=
  { old with errnum := 0, ptr := fun _ => none, errbuf := none }

/-- `EIO_REQ_FREE(req)`, the request being the block at `r`. -/
def eioReqFree (r : Nat) (req : EioReq) (h : Heap Object) : Heap Object :=
  let h := (List.finRange 3).foldl (fun h i => h.free (req.ptr i)) h
  let h := h.free req.errbuf
  h.free (some r)

/-- The block `strerror_r` has written to. -/
def errText (e : SysError) : Object :=
  .bytes (cells (e.text ++ [0]) ++
    List.replicate (eioReqErrbufSize - (e.text.length + 1)) none)

namespace EioState

/-- `EIO_REQ_SETERR(req)` -/
def seterr (s : EioState) (e : SysError) : EioState :=
  { s with
    req := { s.req with errnum := e.errno, errbuf := some s.heap.next }
    heap := s.heap.alloc (errText e) }

/-- A system call is made. -/
def trap (s : EioState) (call : Syscall) : EioState := { s with calls := s.calls ++ [call] }

/-- `req->ret.fd = ret` and `req->ret.size = ret` -/
def setRet (s : EioState) (ret : Int) : EioState := { s with req := { s.req with ret := ret } }

/-- `free(req->ptr[i])` -/
def free (s : EioState) (i : Fin 3) : EioState := { s with heap := s.heap.free (s.req.ptr i) }

/-- `req->ptr[i] = p` -/
def setPtr (s : EioState) (i : Fin 3) (p : Option Nat) : EioState :=
  { s with req := { s.req with ptr := Function.update s.req.ptr i p } }

/-- The string behind `req->ptr[i]`. -/
def path (s : EioState) (i : Fin 3) : Option (List UInt8) := pathAt s.heap (s.req.ptr i)

/-- What a call that succeeds writes to the buffer `req->ptr[i]`. -/
def fill (s : EioState) (result : SysResult) (i : Fin 3) : EioState :=
  match result with
  | .success _ data => { s with heap := fillAt s.heap data (s.req.ptr i) }
  | .failure _ => s

/-- `if(call) { EIO_REQ_SETERR(req); … }` -/
def onError (s : EioState) (result : SysResult) (handle : EioState → EioState) : EioState :=
  match result with
  | .success _ _ => s
  | .failure e => handle (s.seterr e)

end EioState

end Ryze
